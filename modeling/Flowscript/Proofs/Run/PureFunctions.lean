import Flowscript.Proofs.Machine.NativeWrites
import Flowscript.Proofs.Run.SealKeepingCalls

/-! # Pure functions have no effect

A pure function consists of expressions, and an expression calls pure functions only. What these take by
value is copied before the call, so whatever they do to it, they do to the copy. By the depth of nesting
nothing that was there before is written to, save the storage for the result.
-/
namespace Flowscript

open Activation (Bears)

variable {κ : Seal} {callable : Function → Prop} {w : Context} {args : List Value}

/-- The block holds what it held, and no new block takes its place. -/
structure Machine.Keeps (κ : Seal) (m : Machine) : Prop where
  data : m.memory.block κ.block = κ.data
  known : κ.block < m.memory.next

namespace Machine.Keeps

variable {m : Machine}

instance : Machine.Sealing κ (Machine.Keeps κ) :=
  ⟨known, fun h hdata hnext _ => ⟨hdata.trans h.data, h.known.trans_le hnext⟩⟩

theorem enter (h : m.Keeps κ) (p : Program) (seat : Seat) (args : List Value) :
    (p.enter seat args m).Keeps κ where
  data := (congrArg (Memory.block · κ.block) (m.memory_modifyInterpreter seat _)).trans h.data
  known := h.known.trans_eq (congrArg Memory.next (m.memory_modifyInterpreter seat _)).symm

theorem leave (h : m.Keeps κ) (seat : Seat) (current : Option Seat)
    (world : Option (TypeId × Place)) : (Program.leave seat current world m).Keeps κ where
  data := (congrArg (Memory.block · κ.block) (m.memory_modifyInterpreter seat _)).trans h.data
  known := h.known.trans_eq (congrArg Memory.next (m.memory_modifyInterpreter seat _)).symm

end Machine.Keeps

/-- Nothing in the sealed block is handed over, by value or to be moved out of. -/
def Seal.Retains (κ : Seal) (args : List Value) : Prop :=
  ∀ v ∈ args, v.form.isOwning = true → κ.Free v.place?

theorem Seal.Withholds.retains (h : κ.Withholds args) : κ.Retains args := by
  intro v hv howning place hplace hblock
  have hconstant := h v hv place hplace hblock
  cases hform : v.form <;> simp [hform, Form.isOwning, Form.isMutable] at howning hconstant

theorem Run.Lent.retains {D : PinId → Prop} {pins : List (Param × PinId)}
    (h : Run.Lent κ D pins args) : κ.Retains args := by
  induction h with
  | nil => exact List.forall_mem_nil _
  | cons hv _ ih =>
    refine List.forall_mem_cons.mpr ⟨fun howning place hplace hblock => ?_, ih⟩
    obtain ⟨hform, hlent, -⟩ := hv place hplace hblock
    rw [hform, hlent] at howning
    cases howning

/-- A function that is to write to nothing but its result and what it is handed over: it is flagged as
pure, or it constructs. -/
def Context.Effectless (w : Context) (f : Function) : Prop :=
  f.pure = true ∨ ∃ handle, f ∈ (w.catalogue.info handle).overloads (.operator .construct)

/-- Effectless functions keep the block if they are not handed data in it, and give back no value that
owns some. -/
def Invoke.Harmless (κ : Seal) (callable : Function → Prop) (w : Context) (invoke : Invoke) : Prop :=
  ∀ f args ret, callable f → w.Effectless f → κ.Retains args → κ.Free ret →
    Maintains (Machine.Keeps κ) w (invoke f args ret) κ.Unowned

/-- Native code that may be relied on: flagged as pure, or constructing, it writes to its result and to
what it is handed over, and may call functions that do the same. -/
def Native.Harmless (κ : Seal) (callable : Function → Prop) (w : Context) (native : Native) : Prop :=
  ∀ invoke, invoke.Harmless κ callable w → ∀ f args ret, callable f → w.Effectless f →
    f.check (args.map Value.argument) = .ok () → κ.Retains args → κ.Free ret →
    Maintains (Machine.Keeps κ) w (native invoke f args ret) κ.Unowned

def Program.Harmless (κ : Seal) (callable : Function → Prop) (w : Context) (p : Program) : Prop :=
  ∀ invoke, invoke.Harmless κ callable w → ∀ seat args ret, κ.Retains args → κ.Free ret →
    Maintains (Machine.Keeps κ) w (p.execute invoke seat args ret) κ.Unowned

/-- A program of an edited graph that declares its function as pure, and calls what can be called. -/
structure Program.Pure (callable : Function → Prop) (p : Program) : Prop where
  compiled : ∃ g c s, Graph.Edited g ∧ g.signature.pure = true ∧ Program.compile g c s = .ok p
  calls : ∀ id n f, p.node? id = some n → n.op = .call f → callable f

/-- Scripts are what their functions are flagged as; one that is not flagged as pure and constructs
nevertheless may be relied on like native code. Constructors can be called. -/
structure Context.Harmless (callable : Function → Prop) (w : Context) : Prop where
  scripts : ∀ f, callable f → w.Effectless f → ∀ number body p, f.body = .script number →
    w.bodies[number]? = some body → body.state = .ready p →
    p.Pure callable ∨ f.pure = false ∧ ∀ κ, p.Harmless κ callable w
  constructs : ∀ h f, f ∈ (w.catalogue.info h).overloads (.operator .construct) → callable f

theorem Invoke.Harmless.builds {invoke : Invoke} (h : invoke.Harmless κ callable w)
    (hw : w.Harmless callable) : invoke.Builds κ (Machine.Keeps κ) w :=
  fun handle f args target hmem hargs htarget => h f args (some target)
    (hw.constructs handle f hmem) (.inr ⟨handle, hmem⟩) hargs.retains (Seal.free_some htarget)

namespace Program

open Flowscript.Graph

variable {p : Program}

theorem leading_of_callPins {c : Catalogue} {f : Function} {specs : List PinSpec}
    (h : NodeKind.callPins c f = .ok specs) (hpure : f.pure = false) :
    specs.any (·.type.isFlow) = true ∧
      specs.find? (·.direction == .output) = some (PinSpec.flowOut "Then") := by
  obtain ⟨args, result, hargs, rfl, -⟩ := callPins_eq h
  obtain ⟨-, hin, -⟩ := specs_of_params hargs
  have hinputs : args.find? (·.direction == .output) = none := by
    refine List.find?_eq_none.mpr fun s hs hout => ?_
    rw [← hin] at hs
    have hdirection := (List.mem_filter.mp hs).2
    cases hd : s.direction <;> simp [hd] at hout hdirection
  rw [hpure]
  refine ⟨rfl, ?_⟩
  simp [List.find?_append, hinputs, PinSpec.flowIn, PinSpec.flowOut]

/-- An expression that is a call is one of a pure function: a call of another has pins of flow. -/
theorem pure_of_call {g : Graph} {c : Catalogue} {s : Setting} (hedited : g.Edited)
    (h : compile g c s = .ok p) {id : NodeId} {n : ProgramNode} (hn : p.node? id = some n)
    {f : Function} (hop : n.op = .call f) (hpure : n.pure = true) : f.pure = true := by
  have hg := hedited.consistent
  obtain ⟨n', hnode, -, hchecked, hcompile⟩ := exists_compiled hg h hn
  obtain ⟨op, hopOf, rfl⟩ := compileNode_eq hcompile
  obtain rfl : op = .call f := hop
  have hpure : g.isPure n'.id = true := hpure
  obtain ⟨type, function, signature, hkind, hresolve⟩ := exists_call_of_opOf hopOf
  obtain ⟨specs, hspecs, -⟩ := hchecked.fitting
  rw [isPure_of_checked hnode hchecked hspecs] at hpure
  rw [hkind, NodeKind.expectedPins, hresolve] at hspecs
  by_contra hno
  obtain ⟨hflow, hleading⟩ := leading_of_callPins hspecs (Bool.not_eq_true _ ▸ hno)
  rw [hflow, hleading] at hpure
  exact Bool.noConfusion ((Bool.and_eq_true_iff.mp hpure).2)

theorem Pure.pure (hp : p.Pure callable) : p.pure = true := by
  obtain ⟨g, c, s, hedited, hpure, hcompile⟩ := hp.compiled
  obtain ⟨-, ha⟩ := assembled_of_compile hedited.consistent hcompile
  exact ha.pure.trans hpure

variable {sc : Scope} {invoke : Invoke} {ret : Option Place}

/-- In a pure program references may go anywhere: what is called is not handed the data. -/
theorem Pure.custody (hp : sc.program.Pure callable) (h : invoke.Harmless κ callable sc.context)
    (hw : sc.context.Harmless callable) :
    sc.Custody κ (Machine.Keeps κ) (fun _ => True) (fun _ => True) invoke where
  builds := h.builds hw
  this := fun _ _ _ _ => trivial
  world := fun _ _ _ _ _ _ => trivial
  output := fun _ _ _ _ => trivial
  reroute := fun _ _ _ _ => trivial
  answers := by
    intro id n f hn hpure hop args ret hargs hret
    obtain ⟨g, c, s, hedited, -, hcompile⟩ := hp.compiled
    have heffectless : sc.context.Effectless f := .inl (pure_of_call hedited hcompile hn hop hpure)
    exact (h f args ret (hp.calls id n f hn hop) heffectless hargs.retains hret).mono
      fun result hresult v hv place hplace hblock =>
        ⟨hresult v hv place hplace hblock, fun _ _ => trivial⟩

/-- Whatever its arguments are, they are bound as they are, and only the result is computed. -/
theorem Pure.spares_body (hp : sc.program.Pure callable)
    (h : sc.Custody κ (Machine.Keeps κ) (fun _ => True) (fun _ => True) invoke) (args : List Value)
    (hret : κ.Free ret) :
    Maintains (Bears κ (Machine.Keeps κ) fun _ => True) sc (Run.body invoke args ret) κ.Unowned := by
  refine .look_program (.look_node fun entry _ => ?_)
  refine (Run.spares_bindArguments 0 fun _ _ _ _ _ => trivial).andThen fun _ => ?_
  split
  · cases sc.program.returnNode with
    | none => exact Run.spares_tick.andThen fun _ => .throw _
    | some id =>
      refine Run.spares_tick.andThen fun _ => .look_node fun n _ => ?_
      exact (Run.spares_finish h hret).mono fun _ hresult v hv place hplace hblock =>
        (hresult v hv place hplace hblock).1
  · rename_i hno
    exact absurd hp.pure hno

theorem Pure.spares_execute (hp : p.Pure callable) (h : invoke.Harmless κ callable w)
    (hw : w.Harmless callable) (seat : Seat) (args : List Value) (hret : κ.Free ret) :
    Maintains (Machine.Keeps κ) w (p.execute invoke seat args ret) κ.Unowned := by
  have hcustody : (p.scope seat args w).Custody κ (Machine.Keeps κ) (fun _ => True) (fun _ => True)
      invoke := Pure.custody hp h hw
  exact maintains_execute (fun _ hm => hm.enter p seat args) (fun _ _ _ hm' => hm'.leave seat _ _)
    (Pure.spares_body hp hcustody args hret)

end Program

/-- By the depth of nesting: effectless functions are harmless if native ones are. -/
theorem Invoke.harmless_invokeUnder {native : List Call → Native}
    (hn : ∀ calls, (native calls).Harmless κ callable w) (hw : w.Harmless callable) (depth : Nat)
    (calls : List Call) : (invokeUnder native depth calls).Harmless κ callable w := by
  induction depth generalizing calls with
  | zero => exact fun _ _ _ _ _ _ _ => .throw _
  | succ depth ih =>
    intro f args ret hcallable heffectless hargs hret
    unfold invokeUnder
    cases hcheck : f.check (args.map Value.argument) with
    | error e => exact .throw e
    | ok u =>
      have hnative := hn calls _ (ih calls) f args ret hcallable heffectless hcheck hargs hret
      cases hbody : f.body with
      | script number =>
        refine fun m hm => Ensures.bind_iff.mpr (readyProgram_behind (fun body p hready hstate => ?_)
          fun _ => hm)
        refine Ensures.bind_iff.mpr (Ensures.get_iff.mpr ?_)
        refine Maintains.exec_mapError _ ?_ m hm
        rcases hw.scripts f hcallable heffectless number body p hbody hready hstate with
          hp | ⟨-, hp⟩
        · exact hp.spares_execute (ih _) hw m.seat args hret
        · exact hp κ _ (ih _) m.seat args ret hargs hret
      | native op shape destructor => exact hnative
      | aggregate op whole => exact hnative
      | host host => exact hnative

def Context.Recalls (callable : Function → Prop) (w : Context) (type : TypeId) (name : String) : Prop :=
  ∀ t g, w.catalogue.lookup? type = some t → g ∈ t.overloads (.ofName name) →
    callable g ∧ w.Effectless g

def Function.Takes (f : Function) (index : Nat) : Prop :=
  ∀ q, f.params[index]? = some q → q.form = .rvalue

theorem Form.isOwning_of_accepts {f : Form} (h : Form.rvalue.accepts f = true) : f.isOwning = true := by
  cases f <;> first | rfl | cases h

theorem Seal.Retains.free (h : κ.Retains args) {f : Function}
    (hcheck : f.check (args.map Value.argument) = .ok ()) {index : Nat} (htakes : f.Takes index)
    {v : Value} (hv : args[index]? = some v) : κ.Free v.place? := by
  obtain ⟨q, hq, haccepts⟩ := Function.accepts_of_check hcheck hv
  rw [htakes q hq] at haccepts
  exact h v (List.mem_of_getElem? hv) (Form.isOwning_of_accepts haccepts)

/-- A function of the host is harmless if it increments only what it moves out of, and calls back
effectless functions only. -/
def HostFunction.Harmless (callable : Function → Prop) (w : Context) (f : Function)
    (h : HostFunction) : Prop :=
  match h.outcome with
  | .increment index _ => f.Takes index
  | .callback type name => w.Recalls callable type name
  | .tryCallback type name _ => w.Recalls callable type name
  | _ => True

def Function.Harmless (callable : Function → Prop) (w : Context) (f : Function) : Prop :=
  match f.body with
  | .native op _ _ => ∀ index ∈ op.changes, f.Takes index
  | .aggregate .move _ => f.Takes 0
  | .host h => h.Harmless callable w f
  | _ => True

/-- The functions that come with types and those of the host may be relied on, as long as those that are
declared as effectless do not contradict it. -/
theorem Native.harmless_builtin (hw : w.Harmless callable)
    (hfunctions : ∀ f, callable f → w.Effectless f → f.Harmless callable w)
    (hequal : ∀ handle f, Invoke.equality? (w.catalogue.info handle) = some f →
      callable f ∧ w.Effectless f) :
    Native.builtin.Harmless κ callable w := by
  intro invoke h f args ret hcallable heffectless hcheck hargs hret
  have hf := hfunctions f hcallable heffectless
  unfold Function.Harmless at hf
  unfold builtin
  cases hbody : f.body with
  | native op shape destructor =>
    rw [hbody] at hf
    exact (op.spares_run shape destructor (fun index hmem v hv _ =>
      hargs.free hcheck (hf index hmem) hv) hret).mono fun _ hr => hr.unowned
  | aggregate op whole =>
    have hcompares : invoke.Compares κ (Machine.Keeps κ) w := fun handle g args' out hg hargs' hout =>
      have ⟨hcallable', heffectless'⟩ := hequal handle g hg
      h g args' (some out) hcallable' heffectless' hargs'.retains (Seal.free_some hout)
    refine (AggregateOp.spares_run (h.builds hw) hcompares op whole hret ?_).mono
      fun _ hr => hr.unowned
    rintro rfl place hplace
    rw [hbody] at hf
    obtain ⟨v, hv, hplace⟩ := Option.bind_eq_some_iff.mp hplace
    rw [List.head?_eq_getElem?] at hv
    exact hargs.free hcheck hf hv place hplace
  | host host =>
    rw [hbody] at hf
    have hf : host.Harmless callable w f := hf
    unfold HostFunction.Harmless at hf
    refine HostFunction.spares_run (fun _ hr => hr) (h.builds hw) (fun _ hr => hr.unowned) host hret
      (fun index amount houtcome v hv _ => ?_) (fun index r v _ _ _ => ?_)
      fun type name houtcome => .callNamed fun t g ht hg => ?_
    · rw [houtcome] at hf
      exact hargs.free hcheck hf hv
    · rintro u ⟨⟩ place hplace hblock
      exact Value.isOwning_view v r.form
    · have hrecalls : w.Recalls callable type name := by
        rcases houtcome with houtcome | ⟨message, houtcome⟩ <;> rwa [houtcome] at hf
      obtain ⟨hcallable', heffectless'⟩ := hrecalls t g ht hg
      exact h g args none hcallable' heffectless' hargs κ.free_none
  | script number => exact .throw _

/-- Every block that there was holds what it held, save that of the storage for a result. -/
def Machine.Undisturbed (m : Machine) (ret : Option Place) (m' : Machine) : Prop :=
  ∀ block < m.memory.next, (∀ place, ret = some place → place.block ≠ block) →
    m'.memory.block block = m.memory.block block

/-- Execution of a pure program has no effect, whether it succeeds or not: the data behind its
arguments, of whatever form, behind the owner of the function and behind the worlds are what they were,
and so is all else that there was before. That holds if native functions that are flagged as pure, and
constructors, write to nothing but their result and what they are handed over. -/
theorem Program.execute_pure_disturbs_nothing {native : List Call → Native} {p : Program}
    (hn : ∀ κ calls, (native calls).Harmless κ callable w) (hw : w.Harmless callable)
    (hp : p.Pure callable) (depth : Nat) (calls : List Call) (seat : Seat) (args : List Value)
    (ret : Option Place) (m : Machine) :
    Ensures (p.execute (invokeUnder native depth calls) seat args ret) w m
      (fun _ m' => m.Undisturbed ret m') fun _ m' => m.Undisturbed ret m' := by
  have hone : ∀ block < m.memory.next, (∀ place, ret = some place → place.block ≠ block) →
      Ensures (p.execute (invokeUnder native depth calls) seat args ret) w m
        (fun _ m' => m'.memory.block block = m.memory.block block)
        fun _ m' => m'.memory.block block = m.memory.block block := by
    intro block hknown hret
    have hinvoke := Invoke.harmless_invokeUnder (hn ⟨block, m.memory.block block⟩) hw depth calls
    exact (hp.spares_execute hinvoke hw seat args hret m ⟨rfl, hknown⟩).mono
      (fun _ _ h => h.1.data) fun _ _ h => h.data
  unfold Ensures
  cases hr : p.execute (invokeUnder native depth calls) seat args ret w m with
  | ok r m' => exact fun block hknown hret => (hone block hknown hret).ok hr
  | error e m' => exact fun block hknown hret => (hone block hknown hret).error hr

namespace Program

def wordShape : Shape := .ofPrim "T" (.int .i32)

def copyWord : Function :=
  { name := "Construct", params := [⟨"other", .ofName "T", .constRef⟩]
    result := some (Function.resultParam (.ofName "T") .value), pure := true
    body := .native .copyConstruct wordShape none }

def takeWord : Function :=
  { name := "Take", params := [⟨"other", .ofName "T", .rvalue⟩]
    result := some (Function.resultParam (.ofName "T") .value), pure := true
    body := .native .moveConstruct wordShape none }

def taking : Catalogue where
  infos := #[{ TypeInfo.new "T" ⟨4, 4⟩ with
    traits := { copy := true }
    functions := [(.ofName "Take", [takeWord]), (.operator .construct, [copyWord])] }]
  index := (∅ : Std.HashMap TypeId Handle).insert (.ofName "T") 0

theorem handleNamed?_taking : taking.handleNamed? "T" = some 0 := by
  have hhandle : taking.handle? (.ofName "T") = some 0 := by simp [Catalogue.handle?, taking]
  rw [Catalogue.handleNamed?, hhandle]
  rfl

theorem lookupName?_taking : taking.lookupName? "T" = some (taking.info 0) := by
  rw [Catalogue.lookupName?, handleNamed?_taking]
  rfl

theorem resolveCall_taking : NodeKind.resolveCall taking "T" "Take" takeWord.signature = .ok takeWord := by
  rw [NodeKind.resolveCall, lookupName?_taking]
  simp [taking, Catalogue.info, TypeInfo.functionsNamed, TypeInfo.overloads, TypeInfo.new, takeWord]

def takePins : List PinSpec := [.dataIn "other" "T" .rvalue, .dataOut Function.resultName "T" .value]

theorem expectedPins_taking (s : GraphSignature) :
    (NodeKind.call "T" "Take" takeWord.signature).expectedPins s taking = .ok takePins := by
  have htype : NodeKind.typeName taking (.ofName "T") = .ok "T" := by
    rw [NodeKind.typeName, Catalogue.lookup?, Catalogue.handle?_of_handleNamed? handleNamed?_taking]
    rfl
  rw [NodeKind.expectedPins, resolveCall_taking]
  change NodeKind.callPins taking takeWord = .ok takePins
  simp only [NodeKind.callPins, takeWord, Function.resultParam, List.mapM_cons, List.mapM_nil, htype]
  rfl

/-- A graph that takes its argument and gives it back. -/
def sampling : Graph :=
  EditOp.apply (.addLink ⟨4⟩ ⟨2⟩) taking
    (EditOp.apply (.addLink ⟨1⟩ ⟨3⟩) taking
      (EditOp.apply (.addNodeWithPins (.call "T" "Take" takeWord.signature) takePins) taking
        (EditOp.apply (.addNode .ret) taking
          (EditOp.apply (.addNode .entry) taking
            { name := "Sample"
              signature := { params := [⟨"t", "T", .value⟩], result := some ⟨"T", .value⟩, pure := true
                             isStatic := true } }))))

theorem edited_sampling : sampling.Edited := by
  refine .edit (.edit (.edit (.edit (.edit (.new "Sample" _) _ _ ?_) _ _ ?_) _ _ ?_) _ _ ?_) _ _ ?_ <;>
    · unfold Graph.Numbered
      decide

theorem liveNodes_sampling : sampling.liveNodes =
    [{ id := ⟨1⟩, kind := .entry, firstPin := ⟨1⟩, pinCount := 1 },
      { id := ⟨2⟩, kind := .ret, firstPin := ⟨2⟩, pinCount := 1 },
      { id := ⟨3⟩, kind := .call "T" "Take" takeWord.signature, firstPin := ⟨3⟩, pinCount := 2 }] := rfl

theorem livePins_sampling : sampling.livePins =
    [{ id := ⟨1⟩, node := ⟨1⟩, direction := .output, name := "t", type := .data "T" .value },
      { id := ⟨2⟩, node := ⟨2⟩, direction := .input, name := Function.resultName
        type := .data "T" .value },
      { id := ⟨3⟩, node := ⟨3⟩, direction := .input, name := "other", type := .data "T" .rvalue },
      { id := ⟨4⟩, node := ⟨3⟩, direction := .output, name := Function.resultName
        type := .data "T" .value }] := rfl

theorem findings_sampling : sampling.findings taking = [] := by
  have hpins : sampling.nodePins ⟨3⟩ =
      [{ id := ⟨3⟩, node := ⟨3⟩, direction := .input, name := "other", type := .data "T" .rvalue },
        { id := ⟨4⟩, node := ⟨3⟩, direction := .output, name := Function.resultName
          type := .data "T" .value }] := rfl
  have hcall : sampling.checkNode taking
      { id := ⟨3⟩, kind := .call "T" "Take" takeWord.signature, firstPin := ⟨3⟩, pinCount := 2 } = [] := by
    simp only [Graph.checkNode, expectedPins_taking, hpins]
    simp [takePins, PinSpec.fits, PinSpec.dataIn, PinSpec.dataOut, PinType.type?, lookupName?_taking,
      show sampling.rangeLeaves
        { id := ⟨3⟩, kind := .call "T" "Take" takeWord.signature, firstPin := ⟨3⟩, pinCount := 2 } = false
        from rfl]
  have hsignature : Graph.checkSignature taking sampling.signature = [] := by
    change Graph.checkSignature taking { params := [⟨"t", "T", .value⟩], result := some ⟨"T", .value⟩
                                         pure := true, isStatic := true } = []
    simp only [Graph.checkSignature, Graph.checkParams, Graph.checkType, lookupName?_taking]
    rfl
  have hlinks : sampling.checkLinks taking = [] := by
    have hproblem : ∀ form, form = Form.rvalue ∨ form = .value →
        Graph.linkProblem taking (.data "T" .value) (.data "T" form) = none := by
      rintro form (rfl | rfl) <;> simp [Graph.linkProblem, Form.accepts]
    have hin : sampling.checkLink taking ⟨⟨1⟩, ⟨3⟩, ⟨1⟩⟩ = [] := by
      unfold Graph.checkLink
      rw [show sampling.pin? ⟨1⟩ = some { id := ⟨1⟩, node := ⟨1⟩, direction := .output, name := "t"
                                          type := .data "T" .value } from rfl,
        show sampling.pin? ⟨3⟩ = some { id := ⟨3⟩, node := ⟨3⟩, direction := .input, name := "other"
                                        type := .data "T" .rvalue } from rfl]
      simp only [hproblem .rvalue (.inl rfl)]
      rfl
    have hout : sampling.checkLink taking ⟨⟨2⟩, ⟨2⟩, ⟨4⟩⟩ = [] := by
      unfold Graph.checkLink
      rw [show sampling.pin? ⟨4⟩ = some { id := ⟨4⟩, node := ⟨3⟩, direction := .output
                                          name := Function.resultName, type := .data "T" .value } from rfl,
        show sampling.pin? ⟨2⟩ = some { id := ⟨2⟩, node := ⟨2⟩, direction := .input
                                        name := Function.resultName, type := .data "T" .value } from rfl]
      simp only [hproblem .value (.inr rfl)]
      rfl
    rw [Graph.checkLinks,
      show sampling.liveLinks = [⟨⟨1⟩, ⟨3⟩, ⟨1⟩⟩, ⟨⟨2⟩, ⟨2⟩, ⟨4⟩⟩] from rfl,
      List.flatMap_cons, List.flatMap_cons, hin, hout]
    rfl
  rw [Graph.findings, liveNodes_sampling, List.flatMap_cons, List.flatMap_cons, List.flatMap_cons, hcall,
    hsignature, hlinks]
  rfl

def samplingProgram : Program where
  name := "Sample"
  script := none
  nodes := #[some { id := ⟨1⟩, label := "Entry", op := .entry, pure := false, dataOut := [⟨1⟩] },
    some { id := ⟨2⟩, label := "Return", op := .ret, pure := false, dataIn := [⟨2⟩] },
    some { id := ⟨3⟩, label := "Call", op := .call takeWord, pure := true, dataIn := [⟨3⟩]
           dataOut := [⟨4⟩] }]
  pins := #[some { node := ⟨1⟩, type := some 0, form := .value, default := none, storage := 0 },
    some { node := ⟨2⟩, type := some 0, form := .value, default := none, source := some ⟨4⟩
           storage := 4 },
    some { node := ⟨3⟩, type := some 0, form := .rvalue, default := none, source := some ⟨1⟩
           storage := 8 },
    some { node := ⟨3⟩, type := some 0, form := .value, default := none, storage := 12 }]
  entry := ⟨1⟩
  returnNode := some ⟨2⟩
  result := some (0, .value)
  pure := true
  params := 1
  hasWorld := false
  thisType := none
  storage := ⟨16, 4⟩

theorem compile_sampling : compile sampling taking {} = .ok samplingProgram := by
  have herrors : sampling.errors taking none = [] := by
    rw [Graph.errors, findings_sampling]
    rfl
  have hresult : sampling.signature.result = some ⟨"T", .value⟩ := rfl
  refine compile_eq_ok_iff.mpr ⟨edited_sampling.overflows_eq_false, herrors, ?_⟩
  simp only [assemble, livePins_sampling, liveNodes_sampling, placePins, placePin,
    handleNamed?_taking, compileNodes, compileNode, opOf, resolveCall_taking, hresult, bind, Except.bind]
  rfl

theorem pure_sampling : samplingProgram.Pure fun f => f = copyWord ∨ f = takeWord := by
  refine ⟨⟨sampling, taking, {}, edited_sampling, rfl, compile_sampling⟩, fun id n f hn hop => ?_⟩
  obtain ⟨hpos, hle⟩ := slot?_bound hn
  obtain ⟨val⟩ := id
  have hval : val = 1 ∨ val = 2 ∨ val = 3 := by
    change 0 < val at hpos
    change val ≤ 3 at hle
    omega
  rcases hval with rfl | rfl | rfl <;> cases hn <;> cases hop
  exact .inr rfl

theorem overloads_taking {handle : Handle} {key : FunctionKey} {f : Function}
    (hf : f ∈ (taking.info handle).overloads key) : f = copyWord ∨ f = takeWord := by
  unfold TypeInfo.overloads at hf
  cases handle with
  | zero =>
    have hfunctions : (taking.info 0).functions =
        [(.ofName "Take", [takeWord]), (.operator .construct, [copyWord])] := rfl
    rw [hfunctions, List.lookup_cons, List.lookup_cons] at hf
    split at hf
    · exact .inr (List.mem_singleton.mp hf)
    · split at hf
      · exact .inl (List.mem_singleton.mp hf)
      · cases hf
  | succ handle => cases hf

theorem harmless_taking : Context.Harmless (fun f => f = copyWord ∨ f = takeWord)
    { catalogue := taking } :=
  ⟨fun _ _ _ _ _ _ _ hbody => (nomatch hbody), fun _ _ => overloads_taking⟩

theorem harmless_builtin_taking (κ : Seal) :
    Native.builtin.Harmless κ (fun f => f = copyWord ∨ f = takeWord) { catalogue := taking } := by
  refine Native.harmless_builtin harmless_taking ?_ fun handle f hf => ?_
  · rintro f (rfl | rfl) - index hindex
    · cases hindex
    · obtain rfl := List.mem_singleton.mp hindex
      rintro q ⟨⟩
      rfl
  · have hf := overloads_taking (List.mem_of_find?_eq_some hf)
    exact ⟨hf, .inl (by rcases hf with rfl | rfl <;> rfl)⟩

def holding : Machine :=
  { memory := Memory.write { next := 1 } ⟨0, 0, .apart 0⟩ (.int .i32) (.int 5) }

/-- The argument is moved out of, but it is a copy that is. -/
theorem sampling_disturbs_nothing :
    sampling.Edited ∧ sampling.signature.pure = true ∧
      compile sampling taking {} = .ok samplingProgram ∧
      ∃ v m', samplingProgram.execute (invokeUnder (fun _ => Native.builtin) 2 []) .own
          [.borrowed (.ofName "T") .value ⟨0, 0, .apart 0⟩] none { catalogue := taking } holding =
            .ok v m' ∧ holding.Undisturbed none m' := by
  have hsucceeds : succeeds (samplingProgram.execute (invokeUnder (fun _ => Native.builtin) 2 []) .own
      [.borrowed (.ofName "T") .value ⟨0, 0, .apart 0⟩] none { catalogue := taking } holding) = true := by
    decide +kernel
  have hnothing := execute_pure_disturbs_nothing (fun κ _ => harmless_builtin_taking κ) harmless_taking
    pure_sampling 2 [] .own [.borrowed (.ofName "T") .value ⟨0, 0, .apart 0⟩] none holding
  refine ⟨edited_sampling, rfl, compile_sampling, ?_⟩
  cases hr : samplingProgram.execute (invokeUnder (fun _ => Native.builtin) 2 []) .own
      [.borrowed (.ofName "T") .value ⟨0, 0, .apart 0⟩] none { catalogue := taking } holding with
  | error e m' =>
    rw [hr] at hsucceeds
    cases hsucceeds
  | ok v m' => exact ⟨v, m', rfl, hnothing.ok hr⟩

end Program

end Flowscript
