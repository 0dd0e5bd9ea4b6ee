import Flowscript.Proofs.Machine.AcceptedArguments
import Flowscript.Proofs.Machine.LookupOperations
import Flowscript.Proofs.Run.WellFormedPrograms

/-! # Runs of well-formed programs

A run of a well-formed program finds everything it looks up, whatever the functions it calls do, and it
calls them only with arguments they accept. `Safe` says so of a computation of a call; the one thing
that has to be carried along is that the loops under way are loops of the program.
-/
namespace Flowscript

variable {ε α β : Type} {sc : Scope}

/-- What a node does when the body of a loop has ended. -/
def LoopMarker.op : LoopMarker → Op
  | .forLoop _ => .forLoop
  | .whileLoop _ => .whileLoop

def Frame.LoopsIn (p : Program) (f : Frame) : Prop :=
  ∀ marker ∈ f.loops, ∃ n, p.node? marker.node = some n ∧ n.op = marker.op

theorem Frame.suffix_exitLoop (f : Frame) (id : NodeId) : (f.exitLoop id).loops <:+ f.loops := by
  unfold Frame.exitLoop
  split
  · exact List.suffix_refl _
  · rename_i marker outer hdrop
    exact (List.suffix_cons marker outer).trans (hdrop ▸ List.dropWhile_suffix _)

theorem Frame.LoopsIn.exitLoop {p : Program} {f : Frame} (h : f.LoopsIn p) (id : NodeId) :
    (f.exitLoop id).LoopsIn p := fun marker hmarker => h marker ((f.suffix_exitLoop id).mem hmarker)

theorem Frame.LoopsIn.enterLoop {p : Program} {f : Frame} (h : f.LoopsIn p) {marker : LoopMarker}
    {n : ProgramNode} (hn : p.node? marker.node = some n) (hop : n.op = marker.op) :
    (f.enterLoop marker).LoopsIn p := by
  intro other hother
  unfold Frame.enterLoop at hother
  split at hother
  · exact h other hother
  · rcases List.mem_cons.mp hother with rfl | hother
    · exact ⟨n, hn, hop⟩
    · exact h other hother

def Program.Enters (p : Program) (id : PinId) : Prop :=
  ∃ q n, p.pin? id = some q ∧ p.node? q.node = some n ∧ id ∈ n.flowIn

def Program.Leads (p : Program) (next : Option PinId) : Prop := ∀ id, next = some id → p.Enters id

/-- Two computations of a call do the same, and fail only as programs without a fault do. -/
def Safe (sc : Scope) (x y : Run α) (Q : α → Prop) : Prop :=
  ∀ a, a.frame.LoopsIn sc.program →
    Agree x y sc a (fun r b => Q r ∧ b.frame.LoopsIn sc.program)
      fun e b => e.kind ≠ .compilerBug ∧ b.frame.LoopsIn sc.program

/-- A computation that does not fail and leaves the loops alone. -/
def Quiet (x : Run α) : Prop :=
  ∀ sc a, Ensures x sc a (fun _ b => b.frame.loops = a.frame.loops) fun _ _ => False

namespace Quiet

theorem pure (r : α) : Quiet (Pure.pure r) := fun _ _ => rfl

theorem bind {x : Run β} {f : β → Run α} (hx : Quiet x) (hf : ∀ b, Quiet (f b)) :
    Quiet (x >>= f) := fun sc a =>
  (hx sc a).bind fun b t ht => (hf b sc t).mono (fun _ _ h => h.trans ht) fun _ _ h => h

theorem liftTotal (x : Exec Empty α) : Quiet (Run.liftTotal x) := by
  intro sc a
  rw [Ensures.run_liftTotal_iff]
  unfold Ensures
  cases x sc.context a.machine with
  | ok r m => rfl
  | error e m => trivial

theorem modifyFrame {f : Frame → Frame} (hf : ∀ fr, (f fr).loops = fr.loops) :
    Quiet (Run.modifyFrame f) := fun _ a => hf a.frame

theorem modifyInterpreter (f : Interpreter → Interpreter) : Quiet (Run.modifyInterpreter f) :=
  fun _ _ => rfl

theorem read : Quiet (MonadReader.read : Run Scope) := fun _ _ => rfl

theorem frame : Quiet Run.frame := fun _ _ => rfl

theorem program : Quiet Run.program := fun _ _ => rfl

theorem interpreter : Quiet Run.interpreter := fun _ _ => rfl

theorem memory : Quiet Run.memory := fun _ _ => rfl

end Quiet

namespace Run

theorem quiet_noteNode (message : String) (n : ProgramNode) : Quiet (noteNode message n) := by
  refine Quiet.read.bind fun s => ?_
  cases s.context.traceLimit with
  | none => exact .pure _
  | some limit => exact .liftTotal _

theorem quiet_set (id : PinId) (state : SlotState) : Quiet (modifyFrame (·.set id state)) := by
  refine .modifyFrame fun fr => ?_
  unfold Frame.set
  split <;> rfl

theorem quiet_clear (id : PinId) : Quiet (clear id) := by
  refine Quiet.program.bind fun p => Quiet.frame.bind fun f => ?_
  dsimp only
  split
  · split
    · exact Quiet.read.bind fun _ => (Quiet.liftTotal _).bind fun _ => quiet_set _ _
    · exact quiet_set _ _
  · exact quiet_set _ _

theorem quiet_storage? (id : PinId) : Quiet (storage? id) :=
  Quiet.frame.bind fun _ => Quiet.program.bind fun _ => .pure _

theorem quiet_setOwned (id : PinId) : Quiet (setOwned id) := by
  have hcharge : Quiet (charge? id) := Quiet.read.bind fun _ => Quiet.frame.bind fun _ => .pure _
  refine hcharge.bind fun charge => ?_
  cases charge with
  | none => exact quiet_set _ _
  | some v => exact (Quiet.liftTotal _).bind fun _ => quiet_set _ _

theorem quiet_setBorrowed (id : PinId) (place : Place) : Quiet (setBorrowed id place) :=
  (quiet_clear id).bind fun _ => quiet_set _ _

theorem quiet_setNull (id : PinId) : Quiet (setNull id) :=
  (quiet_clear id).bind fun _ => quiet_set _ _

theorem quiet_readInt (id : PinId) : Quiet (readInt id) := by
  refine Quiet.frame.bind fun f => Quiet.program.bind fun p => ?_
  cases f.value? p id with
  | none => exact .pure _
  | some place =>
    refine Quiet.memory.bind fun m => ?_
    cases m.read place (.int .i32) <;> exact .pure _

theorem quiet_writeInt (id : PinId) (n : Int) : Quiet (writeInt id n) := by
  refine (quiet_clear id).bind fun _ => (quiet_storage? id).bind fun place => ?_
  cases place with
  | none => exact .pure _
  | some place => exact (Quiet.liftTotal _).bind fun _ => quiet_setOwned id

theorem quiet_allocTemp (l : Layout) : Quiet (allocTemp l) := fun _ _ =>
  allocTemp_ensures (fun _ => rfl) fun _ _ _ => rfl

theorem quiet_resultStorage (out : Option PinId) (form : Option Form) :
    Quiet (resultStorage out form) := by
  unfold resultStorage
  split
  · split
    · exact (quiet_clear _).bind fun _ => quiet_storage? _
    · exact .pure _
  · exact .pure _

end Run

namespace Safe

variable {Q : α → Prop} {P : β → Prop}

theorem mono {x y : Run α} {Q' : α → Prop} (h : Safe sc x y Q) (hQ : ∀ r, Q r → Q' r) :
    Safe sc x y Q' := fun a ha =>
  (h a ha).mono (fun r _ hr => ⟨hQ r hr.1, hr.2⟩) fun _ _ he => he

theorem pure {r : α} (h : Q r) : Safe sc (Pure.pure r : Run α) (Pure.pure r) Q :=
  fun _ ha => ⟨rfl, h, ha⟩

theorem throw {e : ScriptError} (h : e.kind ≠ .compilerBug) :
    Safe sc (MonadExcept.throw e : Run α) (MonadExcept.throw e) Q := fun _ ha => ⟨rfl, h, ha⟩

theorem bind {x y : Run β} {f g : β → Run α} (hx : Safe sc x y P)
    (hf : ∀ b, P b → Safe sc (f b) (g b) Q) : Safe sc (x >>= f) (y >>= g) Q := fun a ha =>
  (hx a ha).bind fun b t hb => hf b hb.1 t hb.2

theorem quiet {x : Run α} (hx : Quiet x) : Safe sc x x fun _ => True := by
  intro a ha
  refine ⟨rfl, (hx sc a).mono (fun r b hb => ⟨trivial, ?_⟩) fun e b he => he.elim⟩
  unfold Frame.LoopsIn
  rw [hb]
  exact ha

theorem modifyFrame {f : Frame → Frame}
    (hf : ∀ fr : Frame, fr.LoopsIn sc.program → (f fr).LoopsIn sc.program) :
    Safe sc (Run.modifyFrame f) (Run.modifyFrame f) fun _ => True := fun a ha =>
  ⟨rfl, trivial, hf a.frame ha⟩

theorem lift {x y : Exec ε α} {f : ε → ScriptError} (hx : x = y)
    (hf : ∀ e, (f e).kind ≠ .compilerBug) :
    Safe sc (Run.lift f x) (Run.lift f y) fun _ => True := by
  intro a ha
  refine ⟨by rw [hx], Ensures.run_lift_iff.mpr ?_⟩
  unfold Ensures
  cases x sc.context a.machine with
  | ok r m => exact ⟨trivial, ha⟩
  | error e m => exact ⟨hf e, ha⟩

theorem mapError {x y : Run α} {f : ScriptError → ScriptError} (hx : Safe sc x y Q)
    (hf : ∀ e, (f e).kind = e.kind) : Safe sc (x.mapError f) (y.mapError f) Q := fun a ha =>
  Agree.run_mapError ((hx a ha).mono (fun _ _ h => h) fun e _ he => ⟨hf e ▸ he.1, he.2⟩)

theorem attempt {x y : Run α} (hx : Safe sc x y Q) :
    Safe sc x.attempt y.attempt fun outcome =>
      match outcome with
      | .ok r => Q r
      | .error e => e.kind ≠ .compilerBug := fun a ha => (hx a ha).run_attempt

theorem andFinally {x y : Run α} (after : Exec Empty Unit) (hx : Safe sc x y Q) :
    Safe sc (x.andFinally after) (y.andFinally after) Q := by
  have hend : ∀ (m : Machine) (R : Prop), R →
      Ensures after sc.context m (fun _ _ => R) fun _ _ => True := by
    intro m R hR
    unfold Ensures
    cases after sc.context m with
    | ok u m' => exact hR
    | error e m' => trivial
  exact fun a ha => Agree.run_andFinally
    ((hx a ha).mono (fun r b hb => hend _ _ hb) fun e b he => hend _ _ he)

end Safe

namespace Run

section Lookups

theorem safe_read : Safe sc (MonadReader.read : Run Scope) MonadReader.read (· = sc) :=
  fun _ ha => ⟨rfl, rfl, ha⟩

theorem safe_program : Safe sc program program (· = sc.program) := fun _ ha => ⟨rfl, rfl, ha⟩

theorem safe_node {id : NodeId} {n : ProgramNode} (h : sc.program.node? id = some n) :
    Safe sc (node id) (node id) (· = n) := by
  refine safe_program.bind fun p hp => ?_
  rw [hp, h]
  exact .pure rfl

theorem safe_pin {id : PinId} {q : ProgramPin} (h : sc.program.pin? id = some q) :
    Safe sc (pin id) (pin id) (· = q) := by
  refine safe_program.bind fun p hp => ?_
  rw [hp, h]
  exact .pure rfl

theorem safe_pinType_named {id : PinId} {name : String}
    (h : sc.program.IsNamed sc.context.catalogue id name) :
    Safe sc (pinType id) (pinType id) fun t => t.name = name := by
  obtain ⟨q, handle, hq, ht, hname⟩ := h
  refine (safe_pin hq).bind fun r hr => ?_
  rw [hr, ht]
  refine safe_read.bind fun s hs => .pure ?_
  rw [hs]
  exact hname

theorem safe_pinType {id : PinId} (h : sc.program.IsData id) :
    Safe sc (pinType id) (pinType id) fun _ => True := by
  obtain ⟨q, handle, hq, ht⟩ := h
  exact (safe_pinType_named ⟨q, handle, hq, ht, rfl⟩).mono fun _ _ => trivial

theorem safe_nth {pins : List PinId} {index : Nat} (h : index < pins.length) :
    Safe sc (nth pins index) (nth pins index) fun id => pins[index]? = some id := by
  unfold nth
  rw [List.getElem?_eq_getElem h]
  exact .pure rfl

theorem safe_storage? {id : PinId} (h : sc.program.IsData id) :
    Safe sc (storage? id) (storage? id) fun place => place.isSome := by
  obtain ⟨q, handle, hq, ht⟩ := h
  refine (Safe.quiet .frame).bind fun f _ => safe_program.bind fun p hp => .pure ?_
  rw [hp, Frame.storage?, hq]
  simp only [ht, Option.isSome_some, ↓reduceIte]

theorem safe_storage {id : PinId} (missing : String) (h : sc.program.IsData id) :
    Safe sc (storage id missing) (storage id missing) fun _ => True := by
  refine (safe_storage? h).bind fun place hplace => ?_
  cases place with
  | some place => exact .pure trivial
  | none => cases hplace

end Lookups

theorem safe_tick : Safe sc tick tick fun _ => True := by
  refine (Safe.quiet .interpreter).bind fun i _ => ?_
  dsimp only
  split
  · exact (Safe.quiet (.modifyInterpreter _)).bind fun _ _ => .throw (of_decide_eq_false rfl)
  · exact .quiet (.modifyInterpreter _)

theorem safe_withStack {x y : Run α} {Q : α → Prop} (hx : Safe sc x y Q) :
    Safe sc (withStack x) (withStack y) Q :=
  (Safe.quiet .interpreter).bind fun _ _ => safe_read.bind fun _ _ => hx.andFinally _

theorem safe_fillOwned {id : PinId} (h : sc.program.IsData id) (missing : String)
    {init init' : Place → Run Unit}
    (hi : ∀ place, Safe sc (init place) (init' place) fun _ => True) :
    Safe sc (fillOwned id missing init) (fillOwned id missing init') fun _ => True :=
  (Safe.quiet (quiet_clear id)).bind fun _ _ => (safe_storage _ h).bind fun place _ =>
    (hi place).bind fun _ _ => (Safe.quiet (quiet_setOwned id)).bind fun _ _ => .pure trivial

theorem safe_callFailure (f : Function) (e : CallError) :
    Safe sc (callFailure f e) (callFailure f e) fun error => error.kind ≠ .compilerBug := by
  refine (Safe.quiet .interpreter).bind fun i _ => (Safe.quiet (.modifyInterpreter _)).bind fun _ _ => ?_
  split
  · split
    · rename_i nested hbudget
      refine .pure fun hkind => ?_
      rw [hkind] at hbudget
      cases hbudget
    · exact .pure (of_decide_eq_false rfl)
  · exact .pure (of_decide_eq_false rfl)

theorem safe_storeResult {id : PinId} (h : sc.program.IsData id) (form : Form)
    (result : Option Value) :
    Safe sc (storeResult id form result) (storeResult id form result) fun _ => True := by
  refine (safe_storage? h).bind fun place hplace => ?_
  cases place with
  | none => cases hplace
  | some place =>
    cases result with
    | none =>
      dsimp only
      split
      · exact .quiet (quiet_setOwned id)
      · exact .throw (of_decide_eq_false rfl)
    | some v =>
      dsimp only
      split
      · exact .quiet ((quiet_clear id).bind fun _ => (Quiet.liftTotal _).bind fun _ => quiet_setOwned id)
      · refine Safe.quiet ((Quiet.liftTotal _).bind fun _ => ?_)
        cases v.place? with
        | some source => exact quiet_setBorrowed id source
        | none => exact quiet_setNull id

section Calls

variable {invoke invoke' : Invoke} (h : invoke.Alike invoke')

include h

theorem safe_copyTemp (t : TypeInfo) (source : Place) :
    Safe sc (copyTemp invoke t source) (copyTemp invoke' t source) fun _ => True := by
  refine (Safe.quiet (quiet_allocTemp _)).bind fun place _ => ?_
  cases place with
  | none => exact .throw (of_decide_eq_false rfl)
  | some temp =>
    exact (Safe.lift (Invoke.copyAt_congr h t temp source) fun _ => of_decide_eq_false rfl).bind fun _ _ =>
      (Safe.quiet (.liftTotal _)).bind fun _ _ => .pure trivial

theorem safe_fallback {id : PinId} (hid : sc.program.IsData id) :
    Safe sc (fallback invoke id) (fallback invoke' id) fun _ => True := by
  have hconstructed : ∀ info t world,
      Safe sc (fallback.constructed invoke id info t world)
        (fallback.constructed invoke' id info t world) fun _ => True := by
    intro info t world
    unfold fallback.constructed
    split
    · exact .pure trivial
    · split
      · exact safe_fillOwned hid _ fun place => .lift (Invoke.defaultAt_congr h t place) fun _ =>
          of_decide_eq_false rfl
      · split
        · exact (Safe.quiet (quiet_setNull id)).bind fun _ _ => .pure trivial
        · exact .throw (of_decide_eq_false rfl)
  have hdata := hid
  obtain ⟨q, handle, hq, ht⟩ := hdata
  refine (safe_pin hq).bind fun info _ => (safe_pinType hid).bind fun t _ =>
    safe_read.bind fun s _ => ?_
  split
  · exact safe_fillOwned hid _ fun place => .lift (Invoke.decodeAt_congr h t _ place) fun _ =>
      of_decide_eq_false rfl
  · refine (Safe.quiet .interpreter).bind fun i _ => ?_
    split
    · split
      · exact .pure trivial
      · exact hconstructed _ _ _
    · exact hconstructed _ _ _

theorem safe_withArguments {pull pull' : Pull} {Q : α → Prop} (n : ProgramNode) (f : Function)
    (rest : List (Param × PinId)) {k k' : List Value → Run α}
    (hrest : ∀ x ∈ rest, sc.program.IsData x.2 ∧ Safe sc (pull x.2) (pull' x.2) fun _ => True)
    (hk : ∀ args, List.Forall₂ Function.MadeFor (rest.map Prod.fst) args → Safe sc (k args) (k' args) Q) :
    Safe sc (withArguments invoke pull n f rest k) (withArguments invoke' pull' n f rest k') Q := by
  induction rest generalizing k k' with
  | nil => exact hk [] .nil
  | cons x rest ih =>
    obtain ⟨p, id⟩ := x
    obtain ⟨hid, hpull⟩ := hrest (p, id) List.mem_cons_self
    have hmore : ∀ v, Function.MadeFor p v →
        Safe sc (withArguments invoke pull n f rest fun args => k (v :: args))
          (withArguments invoke' pull' n f rest fun args => k' (v :: args)) Q := fun v hv =>
      ih (fun y hy => hrest y (List.mem_cons_of_mem _ hy)) fun args hargs => hk _ (.cons hv hargs)
    refine hpull.bind fun source _ => (safe_pinType hid).bind fun t _ => ?_
    cases source with
    | none =>
      dsimp only
      split
      · rename_i hpointer
        exact hmore _ (Function.madeFor_null hpointer)
      · exact .throw (of_decide_eq_false rfl)
    | some source =>
      dsimp only
      split
      · exact ((safe_copyTemp h t source).mapError fun _ => by rfl).bind fun temp _ =>
          (hmore _ (Function.madeFor_borrowed p temp)).andFinally _
      · exact hmore _ (Function.madeFor_borrowed p source)

theorem safe_callNode {pull pull' : Pull} {n : ProgramNode} {f : Function}
    (hparams : f.params.length ≤ n.dataIn.length) (hout : ∀ id ∈ n.dataOut, sc.program.IsData id)
    (hin : ∀ id ∈ n.dataIn, sc.program.IsData id ∧ Safe sc (pull id) (pull' id) fun _ => True) :
    Safe sc (callNode invoke pull n f) (callNode invoke' pull' n f) fun _ => True := by
  have hzip : (f.params.zip n.dataIn).map Prod.fst = f.params := List.map_fst_zip hparams
  unfold callNode
  refine Safe.bind (P := fun _ => True) (safe_withStack (safe_withArguments h n f _
    (fun x hx => hin x.2 (List.of_mem_zip (a := x.1) (b := x.2) hx).2) fun args hargs => ?_))
    fun outcome _ => ?_
  · refine (Safe.quiet (quiet_resultStorage _ _)).bind fun buffer _ =>
      (Safe.quiet (.modifyInterpreter _)).bind fun _ _ => ?_
    rw [hzip] at hargs
    rw [h f args buffer (Function.check_of_madeFor hargs)]
    exact .quiet (.liftTotal _)
  · cases outcome with
    | error e => exact (safe_callFailure f e).bind fun error he => .throw he
    | ok result =>
      dsimp only
      split
      · rename_i id form hid _
        exact (safe_storeResult (hout id (List.mem_of_mem_head? hid)) form result).mapError fun _ => rfl
      · exact .quiet (.liftTotal _)

omit h in
theorem safe_pullTarget {pull pull' : Pull} {n : ProgramNode} (hlen : 0 < n.dataIn.length)
    (hin : ∀ id ∈ n.dataIn, Safe sc (pull id) (pull' id) fun _ => True) :
    Safe sc (pullTarget pull n) (pullTarget pull' n) fun _ => True := by
  refine (safe_nth hlen).bind fun id hid => (hin id (List.mem_of_getElem? hid)).bind fun place _ => ?_
  cases place with
  | some place => exact .pure trivial
  | none => exact .throw (of_decide_eq_false rfl)

theorem safe_getField {pull pull' : Pull} {n : ProgramNode} (offset : Nat) (type : Handle)
    (hlen : 0 < n.dataIn.length) (hlen' : 0 < n.dataOut.length)
    (hout : ∀ id ∈ n.dataOut, sc.program.IsData id)
    (hin : ∀ id ∈ n.dataIn, Safe sc (pull id) (pull' id) fun _ => True) :
    Safe sc (getField invoke pull n offset type) (getField invoke' pull' n offset type)
      fun _ => True := by
  refine (safe_pullTarget hlen hin).bind fun source _ => (safe_nth hlen').bind fun out hid =>
    safe_read.bind fun s _ => ?_
  exact (safe_fillOwned (hout out (List.mem_of_getElem? hid)) _ fun place =>
    .lift (Invoke.copyAt_congr h _ _ _) fun _ => of_decide_eq_false rfl).bind fun _ _ => .pure trivial

variable (hp : sc.program.WellFormed sc.context.catalogue)

include hp

theorem safe_evaluate {pull pull' : Pull} {id : NodeId} {n : ProgramNode}
    (hn : sc.program.node? id = some n) (hpure : n.pure = true) (hne : n.dataOut ≠ [])
    (hop : n.op ≠ .reroute) (hin : ∀ id ∈ n.dataIn, Safe sc (pull id) (pull' id) fun _ => True) :
    Safe sc (evaluate invoke pull n) (evaluate invoke' pull' n) fun _ => True := by
  have hsuits := hp.suits id n hn
  have hdata := hp.data id n hn
  have hout : ∀ q ∈ n.dataOut, sc.program.IsData q := fun q hq => hdata q (.inr hq)
  unfold Program.Suits at hsuits
  refine safe_tick.bind fun _ _ => (Safe.quiet (quiet_noteNode _ n)).bind fun _ _ => ?_
  cases ho : n.op with
  | call f =>
    rw [ho] at hsuits
    exact safe_callNode h hsuits.1 hout fun q hq => ⟨hdata q (.inl hq), hin q hq⟩
  | fieldGet offset type =>
    rw [ho] at hsuits
    exact safe_getField h offset type hsuits.2.1 hsuits.2.2 hout hin
  | reroute => exact absurd ho hop
  | fieldSet offset type => rw [ho] at hsuits; exact absurd hsuits.1 hne
  | comment => rw [ho] at hsuits; exact absurd hsuits.2 hne
  | entry => rw [ho, hpure] at hsuits; cases hsuits.2
  | ret | branch | forLoop | whileLoop => rw [ho, hpure] at hsuits; cases hsuits.1

theorem safe_pullOutput {pull pull' : Pull} {output : PinId} {q : ProgramPin} {n : ProgramNode}
    (hq : sc.program.pin? output = some q) (hn : sc.program.node? q.node = some n)
    (hout : output ∈ n.dataOut)
    (hin : n.pure = true → ∀ id ∈ n.dataIn, Safe sc (pull id) (pull' id) fun _ => True) :
    Safe sc (pullOutput invoke pull output) (pullOutput invoke' pull' output) fun _ => True := by
  have hne : n.dataOut ≠ [] := List.ne_nil_of_mem hout
  have hvalue : Safe sc (frame >>= fun f => program >>= fun p => Pure.pure (f.value? p output))
      (frame >>= fun f => program >>= fun p => Pure.pure (f.value? p output)) fun _ => True :=
    (Safe.quiet .frame).bind fun _ _ => safe_program.bind fun _ _ => .pure trivial
  refine (safe_pin hq).bind fun r hr => ?_
  subst hr
  refine (safe_node hn).bind fun m hm => ?_
  subst hm
  split
  · rename_i hop
    have hsuits := hp.suits r.node m hn
    unfold Program.Suits at hsuits
    rw [hop] at hsuits
    obtain ⟨hpure, hlen⟩ := hsuits.1 hne
    exact (safe_nth hlen).bind fun id hid => hin hpure id (List.mem_of_getElem? hid)
  · rename_i hop
    dsimp only
    split
    · rename_i hpure
      refine (Safe.quiet .frame).bind fun f _ => ?_
      split
      · exact (safe_evaluate h hp hn hpure hne hop (hin hpure)).bind fun _ _ => hvalue
      · exact hvalue
    · refine (Safe.quiet .frame).bind fun f _ => ?_
      split
      · exact Safe.bind (P := fun _ => True) (.throw (of_decide_eq_false rfl)) fun _ _ => hvalue
      · exact hvalue

omit h hp in
theorem quiet_watchInput (id : PinId) (data : Option Place) : Quiet (watchInput id data) := by
  refine Quiet.read.bind fun s => ?_
  split
  · exact .liftTotal _
  · exact .pure _

theorem safe_pullWithin {depth depth' : Nat} {id : PinId} (hid : sc.program.IsData id)
    (hdepth : Program.WellFormed.height sc.program id < depth)
    (hdepth' : Program.WellFormed.height sc.program id < depth') :
    Safe sc (pullWithin invoke depth id) (pullWithin invoke' depth' id) fun _ => True := by
  induction depth generalizing depth' id with
  | zero => cases hdepth
  | succ depth ih =>
    obtain ⟨depth', rfl⟩ := Nat.exists_eq_add_of_lt hdepth'
    have hdata := hid
    obtain ⟨q, handle, hq, -⟩ := hdata
    refine Safe.bind (P := fun _ => True) ?_ fun data _ =>
      (Safe.quiet (quiet_watchInput id data)).bind fun _ _ => .pure trivial
    refine (safe_pin hq).bind fun r hr => ?_
    subst hr
    cases ho : r.source with
    | none => exact safe_fallback h hid
    | some output =>
      obtain ⟨o, n, hoq, hn, hout⟩ := hp.source id r output hq ho
      refine safe_pullOutput h hp hoq hn hout fun hpure j hj => ?_
      have hpulls : sc.program.Pulls id j := ⟨r, output, o, n, hq, ho, hoq, hn, hpure, hj⟩
      have hlt := hp.height_lt hpulls
      exact ih (hp.data _ n hn j (.inl hj)) (by omega) (by omega)

theorem safe_pullInput {id : PinId} (hid : sc.program.IsData id) :
    Safe sc (pullInput invoke id) (pullInput invoke' id) fun _ => True := by
  refine safe_program.bind fun p hprogram => ?_
  rw [hprogram]
  have hheight := Nat.lt_succ_of_le (Program.WellFormed.height_le sc.program id)
  exact safe_pullWithin h hp hid hheight hheight

theorem safe_pullAtom {id : PinId} {name : String}
    (hid : sc.program.IsNamed sc.context.catalogue id name) (prim : Prim) :
    Safe sc (pullAtom invoke id name prim) (pullAtom invoke' id name prim) fun _ => True := by
  have hdata : sc.program.IsData id := hid.imp fun _ hq => hq.imp fun _ hh => ⟨hh.1, hh.2.1⟩
  refine (safe_pullInput h hp hdata).bind fun place _ => ?_
  cases place with
  | none => exact .throw (of_decide_eq_false rfl)
  | some place =>
    have hexpect : Safe sc (expectType id name) (expectType id name) fun _ => True := by
      refine (safe_pinType_named hid).bind fun t ht => ?_
      rw [if_neg (fun hne => hne ht)]
      exact .pure trivial
    exact hexpect.bind fun _ _ => (Safe.quiet .memory).bind fun _ _ => .pure trivial

theorem safe_pullBool {id : PinId} (hid : sc.program.IsNamed sc.context.catalogue id "bool") :
    Safe sc (pullBool invoke id) (pullBool invoke' id) fun _ => True :=
  (safe_pullAtom h hp hid _).bind fun _ _ => .pure trivial

theorem safe_pullInt {id : PinId} (hid : sc.program.IsNamed sc.context.catalogue id "i32") :
    Safe sc (pullInt invoke id) (pullInt invoke' id) fun _ => True := by
  refine (safe_pullAtom h hp hid _).bind fun atom _ => ?_
  cases atom <;> exact .pure trivial

omit h in
theorem safe_target {id : NodeId} {n : ProgramNode} (hn : sc.program.node? id = some n) {output : PinId}
    (hout : output ∈ n.flowOut) :
    Safe sc (target output) (target output) sc.program.Leads := by
  obtain ⟨q, hq⟩ := Option.isSome_iff_exists.mp (hp.flow id n hn output hout)
  refine (safe_pin hq).bind fun r hr => .pure ?_
  subst hr
  exact fun t ht => hp.target output r t hq ht

omit h in
theorem safe_complete {id : NodeId} {n : ProgramNode} (hn : sc.program.node? id = some n)
    {completed : PinId} (hout : completed ∈ n.flowOut) :
    Safe sc (complete n completed) (complete n completed) sc.program.Leads :=
  (Safe.modifyFrame fun _ hf => hf.exitLoop n.id).bind fun _ _ => safe_target hp hn hout

theorem safe_visitFor {id : NodeId} {n : ProgramNode} (hn : sc.program.node? id = some n)
    (hop : n.op = .forLoop) (via : Option PinId) :
    Safe sc (visitFor invoke n via) (visitFor invoke' n via) sc.program.Leads := by
  have hsuits := hp.suits id n hn
  unfold Program.Suits at hsuits
  rw [hop] at hsuits
  obtain ⟨-, hin, hout, hdata, start, stop, hstart, hstop, hstart', hstop'⟩ := hsuits
  have hmarker : sc.program.node? (LoopMarker.forLoop n.id).node = some n := by
    rw [LoopMarker.node, hp.node_id id n hn]
    exact hn
  refine (safe_nth hin).bind fun break' _ => (safe_nth hdata).bind fun index _ =>
    (safe_nth (Nat.zero_lt_of_lt hout)).bind fun body hbody =>
      (safe_nth hout).bind fun completed hcompleted => ?_
  have hcomplete := safe_complete hp hn (List.mem_of_getElem? hcompleted)
  have hend : Safe sc
      (nth n.dataIn 1 >>= fun id => pullInt invoke id >>= fun stop => readInt index >>= fun i =>
        if i ≥ stop then complete n completed else target body)
      (nth n.dataIn 1 >>= fun id => pullInt invoke' id >>= fun stop => readInt index >>= fun i =>
        if i ≥ stop then complete n completed else target body) sc.program.Leads := by
    refine (safe_nth (List.getElem?_eq_some_iff.mp hstop).choose).bind fun id hi => ?_
    rw [hstop] at hi
    cases hi
    refine (safe_pullInt h hp hstop').bind fun stop _ =>
      (Safe.quiet (quiet_readInt index)).bind fun i _ => ?_
    split
    · exact hcomplete
    · exact safe_target hp hn (List.mem_of_getElem? hbody)
  split
  · exact hcomplete
  · cases via with
    | some pin =>
      refine (safe_nth (List.getElem?_eq_some_iff.mp hstart).choose).bind fun i hi => ?_
      rw [hstart] at hi
      cases hi
      exact (safe_pullInt h hp hstart').bind fun start _ =>
        (Safe.quiet (quiet_writeInt index start)).bind fun _ _ =>
          (Safe.modifyFrame fun _ hf => hf.enterLoop hmarker hop).bind fun _ _ => hend
    | none =>
      exact (Safe.quiet (quiet_readInt index)).bind fun _ _ =>
        (Safe.quiet (quiet_writeInt index _)).bind fun _ _ => hend

theorem safe_visitWhile {id : NodeId} {n : ProgramNode} (hn : sc.program.node? id = some n)
    (hop : n.op = .whileLoop) (via : Option PinId) :
    Safe sc (visitWhile invoke n via) (visitWhile invoke' n via) sc.program.Leads := by
  have hsuits := hp.suits id n hn
  unfold Program.Suits at hsuits
  rw [hop] at hsuits
  obtain ⟨-, hin, hout, condition, hcondition, hcondition'⟩ := hsuits
  have hmarker : sc.program.node? (LoopMarker.whileLoop n.id).node = some n := by
    rw [LoopMarker.node, hp.node_id id n hn]
    exact hn
  refine (safe_nth hin).bind fun break' _ =>
    (safe_nth (Nat.zero_lt_of_lt hout)).bind fun body hbody =>
      (safe_nth hout).bind fun completed hcompleted => ?_
  have hcomplete := safe_complete hp hn (List.mem_of_getElem? hcompleted)
  have hend : Safe sc
      (nth n.dataIn 0 >>= fun id => pullBool invoke id >>= fun condition =>
        if condition then target body else complete n completed)
      (nth n.dataIn 0 >>= fun id => pullBool invoke' id >>= fun condition =>
        if condition then target body else complete n completed) sc.program.Leads := by
    refine (safe_nth (List.getElem?_eq_some_iff.mp hcondition).choose).bind fun i hi => ?_
    rw [hcondition] at hi
    cases hi
    refine (safe_pullBool h hp hcondition').bind fun condition _ => ?_
    split
    · exact safe_target hp hn (List.mem_of_getElem? hbody)
    · exact hcomplete
  split
  · exact hcomplete
  · split
    · exact (Safe.modifyFrame fun _ hf => hf.enterLoop hmarker hop).bind fun _ _ => hend
    · exact hend

theorem safe_setField {id : NodeId} {n : ProgramNode} (hn : sc.program.node? id = some n)
    (hlen : 1 < n.dataIn.length) (offset : Nat) (type : Handle) :
    Safe sc (setField invoke n offset type) (setField invoke' n offset type) fun _ => True := by
  have hpull : ∀ q ∈ n.dataIn, Safe sc (pullInput invoke q) (pullInput invoke' q) fun _ => True :=
    fun q hq => safe_pullInput h hp (hp.data id n hn q (.inl hq))
  refine (safe_pullTarget (Nat.zero_lt_of_lt hlen) hpull).bind fun owner _ =>
    (safe_nth hlen).bind fun q hq => (hpull q (List.mem_of_getElem? hq)).bind fun source _ => ?_
  cases source with
  | none => exact .throw (of_decide_eq_false rfl)
  | some source =>
    refine safe_read.bind fun s _ => safe_withStack ?_
    exact ((safe_copyTemp h _ source).mapError fun _ => by rfl).bind fun temp _ =>
      .quiet (.liftTotal _)

omit hp in
theorem safe_handOver (t : TypeInfo) (source target : Place) :
    Safe sc (handOver invoke t source target) (handOver invoke' t source target) fun _ => True := by
  refine (Safe.quiet .frame).bind fun f _ => (Safe.quiet .program).bind fun p _ => ?_
  cases f.owner? p source with
  | none => exact .lift (Invoke.copyAt_congr h t target source) fun _ => of_decide_eq_false rfl
  | some owner =>
    have hcharge : Quiet (charge? owner) :=
      Quiet.read.bind fun _ => Quiet.frame.bind fun _ => .pure _
    exact .quiet (hcharge.bind fun _ => (Quiet.liftTotal _).bind fun _ => quiet_set owner .empty)

omit h hp in
theorem safe_produce (t : TypeInfo) (ret : Option Place) {init init' : Place → Run Unit}
    (hi : ∀ place, Safe sc (init place) (init' place) fun _ => True) :
    Safe sc (produce t ret init) (produce t ret init') fun _ => True := by
  cases ret with
  | some place => exact (hi place).bind fun _ _ => .pure trivial
  | none =>
    refine (Safe.quiet (.liftTotal _)).bind fun place _ => (hi place).attempt.bind fun outcome he => ?_
    cases outcome with
    | ok u => exact (Safe.quiet (.liftTotal _)).bind fun _ _ => .pure trivial
    | error e => exact (Safe.quiet (.liftTotal _)).bind fun _ _ => .throw he

theorem safe_finish {id : NodeId} {n : ProgramNode} (hn : sc.program.node? id = some n)
    (hop : n.op = .ret) (ret : Option Place) :
    Safe sc (finish invoke n ret) (finish invoke' n ret) fun _ => True := by
  have hsuits := hp.suits id n hn
  unfold Program.Suits at hsuits
  rw [hop] at hsuits
  refine safe_program.bind fun p hprogram => ?_
  subst hprogram
  cases hr : sc.program.result with
  | none => exact .pure trivial
  | some result =>
    obtain ⟨type, form⟩ := result
    rw [hr] at hsuits
    refine safe_read.bind fun s _ => (safe_nth (hsuits.2 rfl)).bind fun q hq =>
      (safe_pullInput h hp (hp.data id n hn q (.inl (List.mem_of_getElem? hq)))).bind fun value _ => ?_
    split
    · cases value with
      | none => exact .throw (of_decide_eq_false rfl)
      | some source =>
        exact safe_produce _ ret fun place => (safe_handOver h _ source place).mapError fun _ => by rfl
    · cases value with
      | none =>
        dsimp only
        split
        · exact .pure trivial
        · exact .throw (of_decide_eq_false rfl)
      | some place =>
        refine (Safe.quiet .interpreter).bind fun i _ => (Safe.quiet .frame).bind fun f _ => ?_
        split
        · exact .throw (of_decide_eq_false rfl)
        · exact .pure trivial

omit hp in
theorem safe_finishEmpty (ret : Option Place) :
    Safe sc (finishEmpty invoke ret) (finishEmpty invoke' ret) fun _ => True := by
  refine (Safe.quiet .program).bind fun p _ => ?_
  cases p.result with
  | none => exact .pure trivial
  | some result =>
    obtain ⟨type, form⟩ := result
    refine safe_read.bind fun s _ => ?_
    dsimp only
    split
    · exact .pure trivial
    · split
      · exact .throw (of_decide_eq_false rfl)
      · exact safe_produce _ ret fun place =>
          .lift (Invoke.defaultAt_congr h _ place) fun _ => of_decide_eq_false rfl

def Goes (p : Program) : Outcome → Prop
  | .next next => p.Leads next
  | .done _ => True

/-- Execution comes to a node through an input or after the body of a loop. -/
def Arrives (p : Program) : Arrival → Prop
  | .through id => p.Enters id
  | .again marker => ∃ n, p.node? marker.node = some n ∧ n.op = marker.op

theorem safe_statement (ret : Option Place) {arrival : Arrival}
    (ha : Arrives sc.program arrival) :
    Safe sc (statement invoke ret arrival) (statement invoke' ret arrival) (Goes sc.program) := by
  cases arrival with
  | again marker =>
    obtain ⟨n, hn, hop⟩ := ha
    refine (safe_node hn).bind fun m hm => ?_
    subst hm
    refine (Safe.quiet (quiet_noteNode _ m)).bind fun _ _ => ?_
    cases marker with
    | forLoop id => exact (safe_visitFor h hp hn hop none).bind fun _ hnext => .pure hnext
    | whileLoop id => exact (safe_visitWhile h hp hn hop none).bind fun _ hnext => .pure hnext
  | through id =>
    obtain ⟨q, n, hq, hn, hin⟩ := ha
    have hne : n.flowIn ≠ [] := List.ne_nil_of_mem hin
    have hsuits := hp.suits q.node n hn
    have hdata := hp.data q.node n hn
    refine (safe_pin hq).bind fun r hr => ?_
    subst hr
    refine (safe_node hn).bind fun m hm => ?_
    subst hm
    refine (Safe.quiet (quiet_noteNode _ m)).bind fun _ _ => ?_
    have hgo : 0 < m.flowOut.length → Safe sc
        (nth m.flowOut 0 >>= fun id => target id >>= fun next => Pure.pure (.next next))
        (nth m.flowOut 0 >>= fun id => target id >>= fun next => Pure.pure (Outcome.next next))
        (Goes sc.program) := fun hlen =>
      (safe_nth hlen).bind fun _ hout =>
        (safe_target hp hn (List.mem_of_getElem? hout)).bind fun _ hnext => .pure hnext
    unfold Program.Suits at hsuits
    cases hop : m.op with
    | ret => exact (safe_finish h hp hn hop ret).bind fun _ _ => .pure trivial
    | call f =>
      rw [hop] at hsuits
      refine (safe_callNode h hsuits.1 (fun q hq => hdata q (.inr hq)) fun q hq => ?_).bind
        fun _ _ => hgo (hsuits.2 hne)
      exact ⟨hdata q (.inl hq), safe_pullInput h hp (hdata q (.inl hq))⟩
    | fieldSet offset type =>
      rw [hop] at hsuits
      exact (safe_setField h hp hn hsuits.2.1 offset type).bind fun _ _ => hgo hsuits.2.2
    | branch =>
      rw [hop] at hsuits
      obtain ⟨-, hout, condition, hcondition, hcondition'⟩ := hsuits
      refine (safe_nth (List.getElem?_eq_some_iff.mp hcondition).choose).bind fun i hi => ?_
      rw [hcondition] at hi
      cases hi
      refine (safe_pullBool h hp hcondition').bind fun truth _ => ?_
      have hlen : (if truth = true then 0 else 1) < m.flowOut.length := by
        split
        · exact Nat.zero_lt_of_lt hout
        · exact hout
      exact (safe_nth hlen).bind fun _ hout =>
        (safe_target hp hn (List.mem_of_getElem? hout)).bind fun _ hnext => .pure hnext
    | forLoop => exact (safe_visitFor h hp hn hop (some id)).bind fun _ hnext => .pure hnext
    | whileLoop => exact (safe_visitWhile h hp hn hop (some id)).bind fun _ hnext => .pure hnext
    | reroute =>
      rw [hop] at hsuits
      exact hgo (hsuits.2 hne)
    | entry => rw [hop] at hsuits; exact absurd hsuits.1 hne
    | fieldGet offset type => rw [hop] at hsuits; exact absurd hsuits.1 hne
    | comment => rw [hop] at hsuits; exact absurd hsuits.1 hne

omit h hp in
theorem arrives_of_arrival? {p : Program} {next : Option PinId} {f : Frame} {arrival : Arrival}
    (hf : f.LoopsIn p) (hnext : p.Leads next) (ha : arrival? next f = some arrival) :
    Arrives p arrival := by
  unfold arrival? at ha
  cases next with
  | some id =>
    cases ha
    exact hnext id rfl
  | none =>
    obtain ⟨marker, hmarker, rfl⟩ := Option.map_eq_some_iff.mp ha
    exact hf marker (List.mem_of_mem_head? hmarker)

theorem safe_statements (ret : Option Place) (fuel : Nat) {next : Option PinId}
    (hnext : sc.program.Leads next) :
    Safe sc (statements invoke ret fuel next) (statements invoke' ret fuel next) fun _ => True := by
  induction fuel generalizing next with
  | zero => exact .throw (of_decide_eq_false rfl)
  | succ fuel ih =>
    refine Safe.bind (P := fun f => f.LoopsIn sc.program) (fun a ha => ⟨rfl, ha, ha⟩) fun f hf => ?_
    cases ha : arrival? next f with
    | none => exact safe_finishEmpty h ret
    | some arrival =>
      refine safe_tick.bind fun _ _ =>
        (safe_statement h hp ret (arrives_of_arrival? hf hnext ha)).bind fun outcome hgoes => ?_
      cases outcome with
      | done result => exact .pure trivial
      | next next => exact (Safe.quiet (.modifyFrame fun _ => by rfl)).bind fun _ _ => ih hgoes

omit h hp in
theorem safe_bindArgument (index : Nat) {id : PinId} (hid : sc.program.IsData id) (v : Value) :
    Safe sc (bindArgument index id v) (bindArgument index id v) fun _ => True := by
  refine (safe_pinType hid).bind fun t _ => ?_
  split
  · exact .throw (of_decide_eq_false rfl)
  · cases v.place? with
    | some place => exact .quiet (quiet_setBorrowed id place)
    | none =>
      dsimp only
      split
      · exact .quiet (quiet_setNull id)
      · exact .throw (of_decide_eq_false rfl)

omit h hp in
theorem safe_bindArguments (index : Nat) {ids : List PinId}
    (hids : ∀ id ∈ ids, sc.program.IsData id) (args : List Value) :
    Safe sc (bindArguments index ids args) (bindArguments index ids args) fun _ => True := by
  induction ids generalizing index args with
  | nil => exact .pure trivial
  | cons id ids ih =>
    cases args with
    | nil => exact .pure trivial
    | cons v vs =>
      exact (safe_bindArgument index (hids id List.mem_cons_self) v).bind fun _ _ =>
        ih (index + 1) (fun q hq => hids q (List.mem_cons_of_mem id hq)) vs

theorem safe_body (args : List Value) (ret : Option Place) :
    Safe sc (body invoke args ret) (body invoke' args ret) fun _ => True := by
  obtain ⟨entry, hentry⟩ := hp.entry
  refine safe_program.bind fun p hprogram => ?_
  subst hprogram
  refine (safe_node hentry).bind fun n hn => ?_
  subst hn
  refine (safe_bindArguments 0 (fun id hid => hp.data _ n hentry id (.inr hid)) _).bind fun _ _ => ?_
  split
  · rename_i hpure
    obtain ⟨id, m, hid, hm, hop⟩ := hp.result hpure
    refine safe_tick.bind fun _ _ => ?_
    rw [hid]
    refine (safe_node hm).bind fun k hk => ?_
    subst hk
    exact safe_finish h hp hm hop ret
  · cases hhead : n.flowOut.head? with
    | some output =>
      exact (safe_target hp hentry (List.mem_of_mem_head? hhead)).bind fun next hnext =>
        safe_statements h hp ret patience hnext
    | none => exact safe_statements h hp ret patience fun _ hid => by cases hid

end Calls

end Run

namespace Program

theorem takeFrame_loops {p : Program} {seat : Seat} {w : Context} {m : Machine} :
    Ensures (p.takeFrame seat) w m (fun f _ => f.loops = []) fun e _ => e.kind ≠ .compilerBug := by
  simp only [takeFrame, Ensures.bind_iff, Ensures.get_iff]
  split
  · exact of_decide_eq_false rfl
  · rfl

variable {invoke invoke' : Invoke} {p : Program} {w : Context}

theorem agree_runFramed (h : invoke.Alike invoke') (hp : p.WellFormed w.catalogue) (seat : Seat)
    (args : List Value) (ret : Option Place) (m : Machine) :
    Agree (p.runFramed invoke seat args ret) (p.runFramed invoke' seat args ret) w m
      (fun _ _ => True) fun e _ => e.kind ≠ .compilerBug := by
  unfold runFramed
  split
  · exact ⟨rfl, of_decide_eq_false rfl⟩
  · refine Agree.bind ⟨rfl, takeFrame_loops⟩ fun f m' hf => ?_
    have hloops : f.LoopsIn p := by
      intro marker hmarker
      rw [hf] at hmarker
      cases hmarker
    have hsafe : Safe (p.scope seat args w) (Run.body invoke args ret) (Run.body invoke' args ret)
        fun _ => True := Run.safe_body h hp args ret
    have hbody := hsafe ⟨f, m'⟩ hloops
    refine ⟨by simp only [runIn, hbody.1], runIn_iff.mpr ?_⟩
    exact hbody.2.mono (fun _ _ _ => trivial) fun _ _ he => he.1

theorem agree_execute_of_alike (h : invoke.Alike invoke') (hp : p.WellFormed w.catalogue)
    (seat : Seat) (args : List Value) (ret : Option Place) (m : Machine) :
    Agree (p.execute invoke seat args ret) (p.execute invoke' seat args ret) w m (fun _ _ => True)
      fun e _ => e.kind ≠ .compilerBug := by
  have hrun := agree_runFramed h hp seat args ret (p.enter seat args m)
  refine ⟨by rw [execute_eq, execute_eq, hrun.1], execute_iff.mpr ?_⟩
  refine hrun.2.mono (fun _ _ _ => trivial) fun e m' he => ?_
  unfold Ensures
  cases p.recordFailure seat ((m.interpreter seat).depth > 0) (e.within p.script p.name) w m' with
  | ok u m'' => exact he
  | error e m'' => trivial

/-- However a program of an edited graph is called, whatever the functions it calls do, and however the
catalogue it was compiled against has changed since, it fails only for reasons that lie in the
arguments, in the functions it calls and in its budgets. And it calls functions only with arguments
they accept: what they would do with others does not matter. -/
theorem execute_of_compile {g : Graph} {c : Catalogue} {s : Setting} {p : Program} (hg : g.Edited)
    (hp : compile g c s = .ok p) {w : Context} (hw : c.Keeps w.catalogue) (invoke : Invoke)
    (seat : Seat) (args : List Value) (ret : Option Place) (m : Machine) :
    Ensures (p.execute invoke seat args ret) w m (fun _ _ => True)
      (fun e _ => e.kind ≠ .compilerBug) ∧
    ∀ invoke' : Invoke, invoke.Alike invoke' →
      p.execute invoke seat args ret w m = p.execute invoke' seat args ret w m := by
  have hformed := (wellFormed_of_compile hg hp).of_keeps hw
  refine ⟨?_, fun invoke' h => (agree_execute_of_alike h hformed seat args ret m).1⟩
  exact (agree_execute_of_alike (fun _ _ _ _ => rfl) hformed seat args ret m).2

def see : Function :=
  { name := "See", params := [⟨"t", .ofName "T", .constRef⟩], result := none, pure := false
    body := .host ⟨false, .nothing, 0⟩ }

def seeing : Catalogue where
  infos := #[{ TypeInfo.new "T" ⟨4, 4⟩ with functions := [(.ofName "See", [see])] }]
  index := (∅ : Std.HashMap TypeId Handle).insert (.ofName "T") 0

theorem handle?_seeing : seeing.handle? (.ofName "T") = some 0 := by
  simp [Catalogue.handle?, seeing]

theorem handleNamed?_seeing : seeing.handleNamed? "T" = some 0 := by
  rw [Catalogue.handleNamed?, handle?_seeing]
  rfl

theorem resolveCall_seeing : NodeKind.resolveCall seeing "T" "See" see.signature = .ok see := by
  rw [NodeKind.resolveCall, Catalogue.lookupName?, handleNamed?_seeing]
  simp [seeing, Catalogue.info, TypeInfo.functionsNamed, TypeInfo.overloads, TypeInfo.new, see]

def seePins : List PinSpec := [.flowIn "Exec", .dataIn "t" "T" .constRef, .flowOut "Then"]

theorem expectedPins_seeing (s : GraphSignature) :
    (NodeKind.call "T" "See" see.signature).expectedPins s seeing = .ok seePins := by
  have htype : NodeKind.typeName seeing (.ofName "T") = .ok "T" := by
    rw [NodeKind.typeName, Catalogue.lookup?, handle?_seeing]
    rfl
  rw [NodeKind.expectedPins, resolveCall_seeing]
  change NodeKind.callPins seeing see = .ok seePins
  simp only [NodeKind.callPins, see, List.mapM_cons, List.mapM_nil, htype]
  rfl

def looking : Graph :=
  EditOp.apply (.addLink ⟨1⟩ ⟨2⟩) seeing
    (EditOp.apply (.addNodeWithPins (.call "T" "See" see.signature) seePins) seeing
      (EditOp.apply (.addNode .entry) seeing { name := "Look" }))

theorem edited_looking : looking.Edited := by
  refine .edit (.edit (.edit (.new "Look" {}) _ _ ?_) _ _ ?_) _ _ ?_ <;>
    · unfold Graph.Numbered
      decide

theorem liveNodes_looking : looking.liveNodes =
    [{ id := ⟨1⟩, kind := .entry, firstPin := ⟨1⟩, pinCount := 1 },
      { id := ⟨2⟩, kind := .call "T" "See" see.signature, firstPin := ⟨2⟩, pinCount := 3 }] := rfl

theorem livePins_looking : looking.livePins =
    [{ id := ⟨1⟩, node := ⟨1⟩, direction := .output, name := "Then", type := .flow },
      { id := ⟨2⟩, node := ⟨2⟩, direction := .input, name := "Exec", type := .flow },
      { id := ⟨3⟩, node := ⟨2⟩, direction := .input, name := "t", type := .data "T" .constRef },
      { id := ⟨4⟩, node := ⟨2⟩, direction := .output, name := "Then", type := .flow }] := rfl

theorem findings_looking : looking.findings seeing = [] := by
  have hpins : looking.nodePins ⟨2⟩ =
      [{ id := ⟨2⟩, node := ⟨2⟩, direction := .input, name := "Exec", type := .flow },
        { id := ⟨3⟩, node := ⟨2⟩, direction := .input, name := "t", type := .data "T" .constRef },
        { id := ⟨4⟩, node := ⟨2⟩, direction := .output, name := "Then", type := .flow }] := rfl
  have hcall : looking.checkNode seeing
      { id := ⟨2⟩, kind := .call "T" "See" see.signature, firstPin := ⟨2⟩, pinCount := 3 } = [] := by
    simp only [Graph.checkNode, expectedPins_seeing, hpins]
    simp [seePins, PinSpec.fits, PinSpec.flowIn, PinSpec.flowOut, PinSpec.dataIn, PinType.type?,
      Catalogue.lookupName?, handleNamed?_seeing, show looking.rangeLeaves
        { id := ⟨2⟩, kind := .call "T" "See" see.signature, firstPin := ⟨2⟩, pinCount := 3 } = false
        from rfl]
  rw [Graph.findings, liveNodes_looking, List.flatMap_cons, List.flatMap_cons, hcall]
  rfl

theorem exists_compile_looking : ∃ p, compile looking seeing {} = .ok p := by
  have herrors : looking.errors seeing none = [] := by
    rw [Graph.errors, findings_looking]
    rfl
  have hplace : ∃ placed, placePins seeing .empty (Array.replicate looking.pins.size none)
      looking.livePins = .ok placed := by
    rw [livePins_looking]
    simp only [placePins, placePin, handleNamed?_seeing, bind, Except.bind]
    exact ⟨_, rfl⟩
  have hnodes : ∃ nodes, compileNodes looking seeing (Array.replicate looking.nodes.size none)
      looking.liveNodes = .ok nodes := by
    rw [liveNodes_looking]
    simp only [compileNodes, compileNode, opOf, resolveCall_seeing]
    exact ⟨_, rfl⟩
  obtain ⟨⟨storage, slots⟩, hplace⟩ := hplace
  obtain ⟨nodes, hnodes⟩ := hnodes
  simp only [compile_eq_ok_iff, assemble, hplace, hnodes, bind, Except.bind]
  exact ⟨_, edited_looking.overflows_eq_false, herrors, rfl⟩

theorem execute_looking :
    looking.Edited ∧ ∃ p, compile looking seeing {} = .ok p ∧
      Ensures (p.execute (invokeWithin 3) .own [] none) { catalogue := seeing } {} (fun _ _ => True)
        (fun e _ => e.kind ≠ .compilerBug) ∧
      p.execute (invokeWithin 3) .own [] none { catalogue := seeing } {} =
        p.execute ((invokeWithin 3).guarded fun _ _ _ => throw .tooDeep) .own [] none
          { catalogue := seeing } {} := by
  obtain ⟨p, hp⟩ := exists_compile_looking
  obtain ⟨hkind, hsame⟩ :=
    execute_of_compile edited_looking hp (w := { catalogue := seeing }) (.refl seeing)
      (invokeWithin 3) .own [] none {}
  exact ⟨edited_looking, p, hp, hkind, hsame _ (Invoke.alike_guarded _ _)⟩

end Program

end Flowscript
