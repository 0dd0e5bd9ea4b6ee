import Flowscript.Loader
import Flowscript.Proofs.Run.SoundStatements

/-! # Inputs are given live data of their types

A call of a program keeps faith if the functions do that it calls: when its frame is closed, a reference
into it would be left dangling, so one that it gives back leads to what was lent. By the depth of
nesting, all functions keep faith if native ones do. So whatever is pulled for an input in a run of
compiled programs lies in a live value, as data of the input's type; unless a value has gone astray or
a reference was given back to data that nobody answers for.
-/
namespace Flowscript

open Activation (Stands)

variable {lies : Layouts} {hosts lent : List Charge} {start : List Use} {invoke : Invoke}
  {w : Context} {p : Program} {seat : Seat} {args : List Value} {ret : Option Place} {m : Machine}

namespace Program

/-- The arguments of a call were lent, and the owner of the function is of its type. -/
structure Receives (lies : Layouts) (lent : List Charge) (p : Program) (args : List Value) : Prop where
  lent : ∀ v ∈ args, v.IsLent lies lent
  this : ∀ i v, p.thisIndex? = some i → args[i]? = some v → p.thisType = some v.type

/-- What a program gives back is of its type and form; a reference leads to what was lent. -/
def Returns (lies : Layouts) (lent : List Charge) (c : Catalogue) (p : Program)
    (result : Option Value) : Prop :=
  ∀ v, result = some v → ∃ h form, p.result = some (h, form) ∧ v.type = (c.info h).id ∧
    v.isOwning = form.isOwning ∧
      (v.isOwning = false → ∀ place, v.place? = some place → Lent lies lent place (c.info h).id)

/-- Closing a frame is not remembered, and nothing goes astray. -/
theorem onward_closeFrame (sc : Scope) (b : Activation) :
    (closeFrame sc b).watch = b.machine.watch ∧
      (closeFrame sc b).care.strays = b.machine.care.strays := by
  have hclear : Ensures (Run.clearAll sc.program.pins.size) sc b _ _ := Run.modest_clearAll _ b
  unfold closeFrame
  cases hr : Run.clearAll sc.program.pins.size sc b with
  | ok u c =>
    obtain ⟨hwatch, hstrays⟩ := hclear.ok hr
    exact ⟨(c.machine.watch_modifyInterpreter _ _).trans hwatch,
      (congrArg Care.strays (c.machine.care_modifyInterpreter _ _)).trans hstrays⟩
  | error e c =>
    obtain ⟨hwatch, hstrays⟩ := hclear.error hr
    exact ⟨(c.machine.watch_modifyInterpreter _ _).trans hwatch,
      (congrArg Care.strays (c.machine.care_modifyInterpreter _ _)).trans hstrays⟩

theorem takeFrame_fresh :
    Ensures (p.takeFrame seat) w m
      (fun f m' => m'.watch = m.watch ∧
        (∀ other, (m'.interpreter other).world = (m.interpreter other).world) ∧
        (∀ id, f.state id = .empty) ∧ f.LoopsIn p)
      fun _ m' => m'.watch = m.watch := by
  simp only [takeFrame, Ensures.bind_iff, Ensures.get_iff]
  cases hframe : Frame.take? p (m.interpreter seat).stack with
  | mk base stack =>
    cases base with
    | none => exact m.watch_modifyInterpreter seat _
    | some base =>
      refine ⟨m.watch_modifyInterpreter seat _, fun other => ?_, Frame.state_replicate _ _ _ _,
        fun marker hmarker => by cases hmarker⟩
      show ((m.modifyInterpreter seat fun i => { i with stack }).interpreter other).world = _
      by_cases hseat : other = seat
      · rw [hseat, Machine.interpreter_modifyInterpreter]
      · rw [Machine.interpreter_modifyInterpreter_of_ne _ hseat]

theorem Starts.stands {f : Frame} {m' : Machine}
    (hstarts : Starts (p.scope seat args w) m ⟨f, m'⟩)
    (hworld : ∀ other, (m'.interpreter other).world = (m.interpreter other).world)
    (hempty : ∀ id, f.state id = .empty) (hargs : p.Receives lies lent args)
    (hm : m.Fair lies hosts lent start) :
    Stands ⟨lies, hosts, lent, m.care.alive, start, m.memory.next⟩ (p.scope seat args w)
      (m.memory.next + p.pins.size ≤ ·) ⟨f, m'⟩ := by
  refine ⟨⟨m.care.faults, hstarts.holds hm.ordered⟩, hm.alive, hm.hosts, fun place type hthis htype => ?_,
    fun other type place hplace => hm.world other type place ((hworld other).symm.trans hplace),
    .of_empty hempty, List.forall_mem_nil _⟩
  obtain ⟨v, hv, hplace⟩ := Option.bind_eq_some_iff.mp hthis
  obtain ⟨i, hi, hv⟩ := Option.bind_eq_some_iff.mp hv
  have htype' : some type = some v.type := htype.symm.trans (hargs.this i v hi hv)
  cases htype'
  exact hargs.lent v (List.mem_of_getElem? hv) place hplace

theorem fair_enter (hargs : ∀ v ∈ args, v.IsLent lies lent) (hm : m.Fair lies hosts lent start) :
    (p.enter seat args m).Fair lies hosts lent start := by
  have hcare : (p.enter seat args m).care = m.care := m.care_modifyInterpreter seat _
  have hnext : (p.enter seat args m).memory.next = m.memory.next :=
    congrArg Memory.next (m.memory_modifyInterpreter seat _)
  refine ⟨fun v hv => ?_, fun v hv => ?_, hm.hosts, fun other type place hworld => ?_,
    hm.watched.of_watch (m.watch_modifyInterpreter seat _)⟩
  · rw [hcare] at hv
    rw [hnext]
    exact hm.ordered v hv
  · rw [hcare]
    exact hm.alive v hv
  · rw [interpreter_enter] at hworld
    by_cases hseat : other = seat
    · rw [hseat, Machine.interpreter_modifyInterpreter] at hworld
      dsimp only at hworld
      cases hof : p.worldOf args with
      | none =>
        rw [hof] at hworld
        exact hm.world seat type place hworld
      | some found =>
        rw [hof, Option.getD_some] at hworld
        subst hworld
        unfold worldOf at hof
        split at hof
        · obtain ⟨v, hv, hplace⟩ := Option.map_eq_some_iff.mp hof
          obtain ⟨source, hsource, heq⟩ := Option.map_eq_some_iff.mp hplace
          cases heq
          exact hargs v (List.mem_of_mem_head? hv) place hsource
        · cases hof
    · rw [Machine.interpreter_modifyInterpreter_of_ne _ hseat] at hworld
      exact hm.world other type place hworld

/-- Recording a failure is not remembered, and nothing goes astray. -/
theorem onward_recordFailure (p : Program) (seat : Seat) (nested : Bool) (e : ScriptError)
    (m : Machine) :
    Ensures (p.recordFailure seat nested e) w m
      (fun _ m' => m'.watch = m.watch ∧ m'.care.strays = m.care.strays) fun _ _ => True := by
  unfold recordFailure
  split
  · refine Ensures.bind_iff.mpr ((Run.modest_trace _ _ m).mono (fun _ m₁ h₁ => ?_) fun _ _ h => h)
    exact ⟨(m₁.watch_modifyInterpreter seat _).trans h₁.1,
      (congrArg Care.strays (m₁.care_modifyInterpreter seat _)).trans h₁.2⟩
  · exact Run.modest_trace _ _ m

section Calls

variable (htrusted : invoke.Trusted lies hosts w) (hw : w.Sound lies) (hp : w.Suits lies p)
include htrusted hw hp

theorem faithful_runFramed (seat : Seat) (args : List Value) (ret : Option Place) (m : Machine)
    (lent : List Charge) (start : List Use) :
    Ensures (p.runFramed invoke seat args ret) w m
      (fun result m' => m.Onward m' ∧ (m.Unmarred m' → p.Receives lies lent args →
        m.Fair lies hosts lent start →
          m'.Watched lies start ∧ p.Returns lies lent w.catalogue result))
      fun _ m' => m.Onward m' ∧ (m.Unmarred m' → p.Receives lies lent args →
        m.Fair lies hosts lent start → m'.Watched lies start) := by
  unfold runFramed
  split
  · exact ⟨.refl m, fun _ _ hm => hm.watched⟩
  refine Ensures.bind_iff.mpr (((takeFrame_starts args).and takeFrame_fresh).mono (fun f m₁ h₁ => ?_)
    fun _ m₁ h₁ => ⟨.of_eq h₁.2 (by rw [h₁.1.1]), fun _ _ hm => hm.watched.of_watch h₁.2⟩)
  obtain ⟨hstarts, hwatch, hworld, hempty, hloops⟩ := h₁
  have hmet : Terms.Met ⟨lies, hosts, lent, m.care.alive, start, m.memory.next⟩
      (p.scope seat args w) invoke := ⟨htrusted, hw, hp⟩
  have hbody : UpholdsAt _ _ (fun a => (∀ v ∈ args, v.IsLent lies lent) ∧
      a.Stands _ _ (m.memory.next + p.pins.size ≤ ·)) (Run.body invoke args ret) _ ⟨f, m₁⟩ :=
    Run.upholds_body hmet args ret hloops
  have hends : Ensures (Run.body invoke args ret) (p.scope seat args w) ⟨f, m₁⟩ _ _ :=
    Run.ends_body htrusted.settles args ret ⟨f, m₁⟩
  have h₁ : m.Onward m₁ := .of_eq hwatch (congrArg Care.strays hstarts.care_eq)
  refine runIn_iff.mpr ((Ensures.and hbody hends).mono (fun v b hb => ?_) fun e b hb => ?_)
  · obtain ⟨⟨hb₁, hb⟩, hconcludes⟩ := hb
    obtain ⟨hcwatch, hcstrays⟩ := onward_closeFrame (p.scope seat args w) b
    have h₂ := (h₁.trans hb₁).trans (.of_eq hcwatch hcstrays)
    have h₃ := (closeFrame (p.scope seat args w) b).onward_watchResult v
    refine ⟨h₂.trans h₃, fun hu hargs hm => ?_⟩
    obtain ⟨hclosed, hreferred⟩ := hu.split h₂ h₃
    obtain ⟨hran, -⟩ := hclosed.split (h₁.trans hb₁) (.of_eq hcwatch hcstrays)
    obtain ⟨hwatched, hfinished⟩ := hb (hran.split h₁ hb₁).2 (hm.watched.of_watch hwatch)
      ⟨hargs.lent, hstarts.stands hworld hempty hargs hm⟩
    refine ⟨(hwatched.of_watch hcwatch).watchResult v, ?_⟩
    rintro u rfl
    obtain ⟨handle, form, hresult, htype, howning, hplace⟩ := hfinished u rfl
    refine ⟨handle, form, hresult, htype, howning, fun hborrowed place hsome =>
      (hplace hborrowed place hsome).resolve_right ?_⟩
    -- What is in care once the frame is closed was there before, in other blocks than the frame's.
    rintro ⟨hle, -⟩
    have hsettles := Machine.Carries.settles
      (Machine.Carries.iff_leaves.mpr (hstarts.leaves_closeFrame hconcludes)) hm.ordered hclosed
    obtain ⟨x, hx, hblock⟩ := List.any_eq_true.mp (hreferred.covers hborrowed hsome)
    have hmem := hsettles.alive.mem_iff.mp hx
    rw [Run.resultCharges_of_not_owning hborrowed, List.nil_append] at hmem
    have hlt := hm.ordered x hmem
    rw [eq_of_beq hblock] at hlt
    exact absurd hle (Nat.not_le.mpr hlt)
  · obtain ⟨⟨hb₁, hb⟩, -⟩ := hb
    obtain ⟨hcwatch, hcstrays⟩ := onward_closeFrame (p.scope seat args w) b
    have h₂ : b.machine.Onward (closeFrame (p.scope seat args w) b) := .of_eq hcwatch hcstrays
    refine ⟨(h₁.trans hb₁).trans h₂, fun hu hargs hm => ?_⟩
    obtain ⟨hran, -⟩ := hu.split (h₁.trans hb₁) h₂
    exact (hb (hran.split h₁ hb₁).2 (hm.watched.of_watch hwatch)
      ⟨hargs.lent, hstarts.stands hworld hempty hargs hm⟩).of_watch hcwatch

theorem faithful_execute (seat : Seat) (args : List Value) (ret : Option Place) (m : Machine)
    (lent : List Charge) (start : List Use) :
    Ensures (p.execute invoke seat args ret) w m
      (fun result m' => m.Onward m' ∧ (m.Unmarred m' → p.Receives lies lent args →
        m.Fair lies hosts lent start →
          m'.Watched lies start ∧ p.Returns lies lent w.catalogue result))
      fun _ m' => m.Onward m' ∧ (m.Unmarred m' → p.Receives lies lent args →
        m.Fair lies hosts lent start → m'.Watched lies start) := by
  have henter : m.Onward (p.enter seat args m) := .of_eq (m.watch_modifyInterpreter seat _)
    (congrArg Care.strays (m.care_modifyInterpreter seat _))
  have hleave : ∀ m' : Machine, (leave seat m.current (m.interpreter seat).world m').watch = m'.watch ∧
      (leave seat m.current (m.interpreter seat).world m').care.strays = m'.care.strays := fun m' =>
    ⟨m'.watch_modifyInterpreter seat _, congrArg Care.strays (m'.care_modifyInterpreter seat _)⟩
  refine execute_iff.mpr ((faithful_runFramed htrusted hw hp seat args ret (p.enter seat args m) lent
    start).mono (fun v m₁ h₁ => ?_) fun e m₁ h₁ => ?_)
  · have hlast : m₁.Onward (leave seat m.current (m.interpreter seat).world m₁) :=
      .of_eq (hleave m₁).1 (hleave m₁).2
    refine ⟨(henter.trans h₁.1).trans hlast, fun hu hargs hm => ?_⟩
    obtain ⟨hran, -⟩ := hu.split (henter.trans h₁.1) hlast
    obtain ⟨hwatched, hreturns⟩ := h₁.2 (hran.split henter h₁.1).2 hargs (fair_enter hargs.lent hm)
    exact ⟨hwatched.of_watch (hleave m₁).1, hreturns⟩
  · refine (onward_recordFailure p seat _ _ m₁).mono (fun _ m₂ h₂ => ?_) fun _ _ _ => trivial
    have hlast : m₁.Onward (leave seat m.current (m.interpreter seat).world m₂) :=
      .of_eq ((hleave m₂).1.trans h₂.1) ((hleave m₂).2.trans h₂.2)
    refine ⟨(henter.trans h₁.1).trans hlast, fun hu hargs hm => ?_⟩
    obtain ⟨hran, -⟩ := hu.split (henter.trans h₁.1) hlast
    exact (h₁.2 (hran.split henter h₁.1).2 hargs (fair_enter hargs.lent hm)).of_watch
      ((hleave m₂).1.trans h₂.1)

end Calls

end Program

namespace Function

theorem types_of_check {f : Function} {args : List Value}
    (h : f.check (args.map Value.argument) = .ok ()) :
    args.map Value.type = f.params.map Param.type := by
  have hfrom : ∀ (index : Nat) (params : List Param) (args : List Value),
      args.length = params.length →
      f.checkFrom index params (args.map Value.argument) = .ok () →
      args.map Value.type = params.map Param.type := by
    intro index params args hlength hcheck
    induction params generalizing index args with
    | nil => rw [List.length_eq_zero_iff.mp hlength]; rfl
    | cons p ps ih =>
      cases args with
      | nil => cases hlength
      | cons v vs =>
        rw [List.map_cons, checkFrom] at hcheck
        obtain ⟨⟨⟩, hv, hvs⟩ := bind_eq_ok_iff.mp hcheck
        rw [List.map_cons, List.map_cons, ih (index + 1) vs (Nat.succ.inj hlength) hvs]
        unfold checkArgument at hv
        split at hv
        · cases hv
        · rename_i htype
          rw [← not_not.mp htype]
          rfl
  unfold check at h
  split at h
  · cases h
  · rename_i hlength
    rw [List.length_map] at hlength
    exact hfrom 0 f.params args (not_not.mp hlength) h

end Function

namespace Program

theorem DeclaredAs.gives {c : Catalogue} {f : Function} (h : p.DeclaredAs c f)
    {result : Option Value} (hr : p.Returns lies lent c result) : f.Gives lies lent result := by
  intro r v hresult hv
  obtain ⟨handle, form, hprogram, htype, howning, hplace⟩ := hr v hv
  have hdeclared := h.1
  rw [hresult, hprogram, Option.map_some, Option.map_some] at hdeclared
  obtain ⟨hrtype, hrform⟩ := Prod.mk.inj (Option.some.inj hdeclared)
  rw [hrtype, hrform]
  exact ⟨htype, howning, hplace⟩

theorem DeclaredAs.receives {c : Catalogue} {f : Function} (h : p.DeclaredAs c f)
    (hcheck : f.check (args.map Value.argument) = .ok ()) (hargs : ∀ v ∈ args, v.IsLent lies lent) :
    p.Receives lies lent args := by
  refine ⟨hargs, fun i v hi hv => ?_⟩
  have htypes := congrArg (·[i]?) (Function.types_of_check hcheck)
  simp only [List.getElem?_map, hv, Option.map_some] at htypes
  exact (h.2 i hi).symm.trans htypes.symm

end Program

/-- Native code that may be relied on: it settles the values in care, leaves the standing, and gives
what it declares if the functions do that it calls. -/
structure Native.Honest (lies : Layouts) (hosts : List Charge) (w : Context) (native : Native) :
    Prop where
  settles : native.Settles
  confined : native.Confined
  faithful : ∀ invoke, invoke.Trusted lies hosts w → (native invoke).Faithful lies hosts w

theorem trusted_invokeUnder {native : List Call → Native}
    (hn : ∀ calls, (native calls).Honest lies hosts w) (hw : w.Sound lies) (depth : Nat)
    (calls : List Call) : (invokeUnder native depth calls).Trusted lies hosts w := by
  have htrusted : ∀ depth calls, (invokeUnder native depth calls).Faithful lies hosts w →
      (invokeUnder native depth calls).Trusted lies hosts w := fun depth calls hfaithful =>
    ⟨settles_invokeUnder (fun calls => (hn calls).settles) depth calls,
      leaves_invokeUnder (fun calls => (hn calls).confined) depth calls, hfaithful⟩
  induction depth generalizing calls with
  | zero => exact htrusted 0 calls fun _ _ _ m _ _ => ⟨.refl m, fun _ _ _ hm => hm.watched⟩
  | succ depth ih =>
    refine htrusted (depth + 1) calls fun f args ret m lent start => ?_
    unfold invokeUnder
    cases hcheck : f.check (args.map Value.argument) with
    | error e => exact ⟨.refl m, fun _ _ _ hm => hm.watched⟩
    | ok u =>
      have hnative := (hn calls).faithful _ (ih calls) f args ret m lent start
      cases hbody : f.body with
      | script number =>
        refine Ensures.bind_iff.mpr (readyProgram_behind (fun body p hready hstate => ?_) fun _ =>
          ⟨.refl m, fun _ _ _ hm => hm.watched⟩)
        refine Ensures.bind_iff.mpr (Ensures.get_iff.mpr (Ensures.exec_mapError_iff.mpr ?_))
        refine (Program.faithful_execute (ih _) hw (hw.programs p ⟨number, body, hready, hstate⟩) m.seat
          args ret m lent start).mono (fun v m' hm' => ⟨hm'.1, fun hu hdeclares hargs hm => ?_⟩)
            fun e m' hm' => ⟨hm'.1, fun hu hdeclares hargs hm => ?_⟩
        · have hdeclared := hdeclares number body p hbody hready hstate
          obtain ⟨hwatched, hreturns⟩ := hm'.2 hu (hdeclared.receives hcheck hargs) hm
          exact ⟨hwatched, hdeclared.gives hreturns⟩
        · have hdeclared := hdeclares number body p hbody hready hstate
          exact hm'.2 hu (hdeclared.receives hcheck hargs) hm
      | native op shape destructor => exact hnative
      | aggregate op whole => exact hnative
      | host host => exact hnative

namespace Context

/-- A function that stands for a program was declared from the graph that the program was compiled
from. -/
def Registers (w : Context) (f : Function) : Prop :=
  ∀ number body p, f.body = .script number → w.bodies[number]? = some body → body.state = .ready p →
    ∃ g c s worldType type, Program.compile g c s = .ok p ∧ c.Filed ∧ c.Keeps w.catalogue ∧
      s.hasWorld = g.signature.event.isSome ∧
      s.thisType = (if g.signature.isStatic then none else some type) ∧
      f = Loader.functionOf worldType type g number

end Context

namespace Program

theorem of_compile {g : Graph} {c : Catalogue} {s : Setting} (h : compile g c s = .ok p) :
    p.hasWorld = s.hasWorld ∧ p.thisType = s.thisType ∧
      (match g.signature.result with
      | none => p.result = none
      | some r => ∃ handle, c.handleNamed? r.type = some handle ∧ p.result = some (handle, r.form)) :=
  have ha := assembles_of_assemble (assemble_of_compile h)
  ⟨ha.hasWorld, ha.thisType, ha.result⟩

theorem declares_of_registers {f : Function} (hc : w.catalogue.Filed) (h : w.Registers f) :
    w.Declares f := by
  intro number body p hbody hready hstate
  obtain ⟨g, c, s, worldType, type, hp, hfiled, hkeeps, hworld, hthis, rfl⟩ :=
    h number body p hbody hready hstate
  obtain ⟨hpworld, hpthis, hpresult⟩ := of_compile hp
  refine ⟨?_, fun i hi => ?_⟩
  · cases hr : g.signature.result with
    | none =>
      rw [hr] at hpresult
      simp [Loader.functionOf, hr, hpresult]
    | some r =>
      rw [hr] at hpresult
      obtain ⟨handle, hhandle, hpresult⟩ := hpresult
      have hid := hfiled.id_info hc hkeeps (Catalogue.handle?_of_handleNamed? hhandle)
      simp [Loader.functionOf, hr, hpresult, hid, Function.resultParam]
  · unfold thisIndex? at hi
    rw [hpthis, hthis] at hi ⊢
    rw [hpworld, hworld] at hi
    cases hstatic : g.signature.isStatic with
    | true =>
      rw [hstatic] at hi
      cases hi
    | false =>
      rw [hstatic] at hi
      cases hi
      cases hevent : g.signature.event.isSome <;> simp [Loader.functionOf, hstatic, hevent]

/-- A program that was compiled from a graph built by edits, against a catalogue whose types have not
gone since, and whose derived types embed their bases. -/
structure Built (lies : Layouts) (w : Context) (p : Program) : Prop where
  compiled : ∃ g c s, Graph.Edited g ∧ compile g c s = .ok p ∧ c.Filed ∧ c.Keeps w.catalogue ∧
    c.Embeds lies
  calls : ∀ id n f, p.node? id = some n → n.op = .call f → w.Registers f

end Program

namespace Context

/-- All programs are built so, and types know only functions declared so. -/
structure Built (lies : Layouts) (w : Context) : Prop where
  filed : w.catalogue.Filed
  programs : ∀ p, w.Offers p → p.Built lies w
  functions : ∀ h key f, f ∈ (w.catalogue.info h).overloads key → w.Registers f

variable (hw : w.Built lies)
include hw

theorem Built.suits (hp : p.Built lies w) : w.Suits lies p := by
  obtain ⟨g, c, s, hg, hcompile, hc, hkeeps, hlies⟩ := hp.compiled
  exact ⟨(Program.wellFormed_of_compile hg hcompile).of_keeps hkeeps,
    Program.typed_of_compile hg hcompile hc hw.filed hkeeps hlies,
    fun id n f hn hop => Program.declares_of_registers hw.filed (hp.calls id n f hn hop)⟩

theorem Built.sound (hp : p.Built lies w) : w.Sound lies := by
  obtain ⟨_, _, _, -, -, -, -, hlies⟩ := hp.compiled
  exact ⟨hlies.whole, fun q hq => hw.suits (hw.programs q hq),
    fun h key f hf => Program.declares_of_registers hw.filed (hw.functions h key f hf)⟩

end Context

/-- Whatever is pulled for an input is remembered, with the type of the input and the values that are in
care at that time. -/
theorem Run.pullStep_remembers (pull : Run.Pull) (id : PinId) (sc : Scope) (a : Activation) :
    Ensures (Run.pullStep invoke pull id) sc a
      (fun data b => ∀ place type, data = some place →
        sc.program.typeOf sc.context.catalogue id = some type →
          ⟨place, type, b.machine.care.alive⟩ ∈ b.machine.watch.uses)
      fun _ _ => True := by
  have hwatch : ∀ (data : Option Place) (b : Activation), Ensures (Run.watchInput id data) sc b
      (fun _ c => ∀ place type, data = some place →
        sc.program.typeOf sc.context.catalogue id = some type →
          ⟨place, type, c.machine.care.alive⟩ ∈ c.machine.watch.uses)
      fun _ _ => True := by
    intro data b
    refine Ensures.bind_iff.mpr (Ensures.read_iff.mpr ?_)
    split
    · rename_i source handle hhandle
      rintro place type ⟨⟩ htype
      rw [Program.typeOf, hhandle] at htype
      cases htype
      exact List.mem_cons_self
    · rename_i hnone
      intro place type hdata htype
      obtain ⟨handle, hhandle, -⟩ := Option.map_eq_some_iff.mp htype
      exact absurd hhandle (hnone place handle hdata)
  refine Ensures.bind_iff.mpr (.of_forall (fun data b => ?_) fun _ _ => trivial)
  exact Ensures.bind_iff.mpr ((hwatch data b).mono (fun _ _ h => h) fun _ _ h => h)

/-- In a run of compiled programs, nested as deep as calls go, every input is given a live value of its
type, or data in one that counts as such: where a derived type embeds a base, and where a field lies.
It does not matter how the data comes about: from a link and through reroutes, from a default, from
the owner of the function, from the world, or from what was computed before. This is so as long as no
value has gone astray and no reference was given back to data that nobody answers for. -/
theorem Program.execute_gives_sound_data (native : List Call → Native)
    (hn : ∀ calls, (native calls).Honest lies hosts w) (hw : w.Built lies) (hp : p.Built lies w)
    (depth : Nat) (calls : List Call) (seat : Seat) (args : List Value) (ret : Option Place)
    (m : Machine) (hm : m.Fair lies hosts lent m.watch.uses) (hargs : p.Receives lies lent args) :
    (∀ pull id sc a, Ensures (Run.pullStep (invokeUnder native depth calls) pull id) sc a
      (fun data b => ∀ place type, data = some place →
        sc.program.typeOf sc.context.catalogue id = some type →
          ⟨place, type, b.machine.care.alive⟩ ∈ b.machine.watch.uses) fun _ _ => True) ∧
    Ensures (p.execute (invokeUnder native depth calls) seat args ret) w m
      (fun _ m' => m.Unmarred m' → ∀ u ∈ m'.watch.uses, u ∈ m.watch.uses ∨ u.Sound lies)
      fun _ m' => m.Unmarred m' → ∀ u ∈ m'.watch.uses, u ∈ m.watch.uses ∨ u.Sound lies := by
  have hsound := hw.sound hp
  refine ⟨fun pull id sc a => Run.pullStep_remembers pull id sc a, ?_⟩
  exact (faithful_execute (trusted_invokeUnder hn hsound depth calls) hsound (hw.suits hp) seat args ret
    m lent m.watch.uses).mono (fun _ _ h hu => (h.2 hu hargs hm).1) fun _ _ h hu => h.2 hu hargs hm

/-- Native code that does nothing. -/
def Native.silent : Native := fun _ _ _ _ => pure none

theorem Native.honest_silent : Native.silent.Honest lies hosts w where
  settles := fun _ _ => Invoke.settles_iff.mpr fun _ _ _ => .pure rfl
  confined := fun _ _ _ _ _ _ _ _ _ _ => ⟨rfl, rfl⟩
  faithful := fun _ _ _ _ _ m _ _ =>
    ⟨.refl m, fun _ _ _ hm => ⟨hm.watched, fun _ _ _ hv => nomatch hv⟩⟩

namespace Program

/-- The program of a graph that calls a function with an input that is not linked. -/
def lookingProgram : Program where
  name := "Look"
  script := none
  nodes := #[some { id := ⟨1⟩, label := "Entry", op := .entry, pure := false, flowOut := [⟨1⟩] },
    some { id := ⟨2⟩, label := "Call", op := .call see, pure := false, flowIn := [⟨2⟩]
           flowOut := [⟨4⟩], dataIn := [⟨3⟩] }]
  pins := #[some (flowPin ⟨1⟩ (some ⟨2⟩)), some (flowPin ⟨2⟩ none),
    some { node := ⟨2⟩, type := some 0, form := .constRef, default := none, storage := 0 },
    some (flowPin ⟨2⟩ none)]
  entry := ⟨1⟩
  returnNode := none
  result := none
  pure := false
  params := 0
  hasWorld := false
  thisType := none
  storage := ⟨4, 4⟩
where
  flowPin (node : NodeId) (target : Option PinId) : ProgramPin :=
    { node, type := none, form := .value, default := none, target, storage := 0 }

theorem compile_looking : compile looking seeing {} = .ok lookingProgram := by
  have herrors : looking.errors seeing none = [] := by
    rw [Graph.errors, findings_looking]
    rfl
  refine compile_eq_ok_iff.mpr ⟨edited_looking.overflows_eq_false, herrors, ?_⟩
  simp only [assemble, livePins_looking, liveNodes_looking, placePins, placePin,
    handleNamed?_seeing, compileNodes, compileNode, opOf, resolveCall_seeing, bind, Except.bind]
  rfl

/-- Nothing lies in a value but itself. -/
def plain : Layouts := fun type offset part => offset = 0 ∧ part = type

theorem handle?_seeing_eq_some {id : TypeId} {h : Handle} (hh : seeing.handle? id = some h) :
    id = .ofName "T" ∧ h = 0 := by
  simp only [Catalogue.handle?, seeing, Std.HashMap.getElem?_insert] at hh
  split at hh
  · rename_i heq
    exact ⟨(eq_of_beq heq).symm, (Option.some.inj hh).symm⟩
  · simp at hh

theorem filed_seeing : seeing.Filed := by
  refine ⟨fun h t ht => ?_, fun id h hh => ?_⟩
  · cases h with
    | zero =>
      cases ht
      rfl
    | succ h => cases ht
  · obtain ⟨rfl, rfl⟩ := handle?_seeing_eq_some hh
    exact ⟨_, rfl, rfl⟩

theorem lookup?_seeing {id : TypeId} {t : TypeInfo} (h : seeing.lookup? id = some t) :
    t.bases = [] ∧ t.fields = [] := by
  obtain ⟨handle, hhandle, rfl⟩ := Option.map_eq_some_iff.mp h
  obtain ⟨-, rfl⟩ := handle?_seeing_eq_some hhandle
  exact ⟨rfl, rfl⟩

theorem embeds_seeing : seeing.Embeds plain := by
  refine ⟨fun _ => ⟨rfl, rfl⟩, @fun type offset heir base hlies hderived => ?_,
    @fun type offset owner t f _ ht hf => ?_⟩
  · have hbound : seeing.walkBound = 3 := rfl
    have hsame : heir = base := by
      rw [Catalogue.isDerivedFrom, hbound] at hderived
      by_contra hne
      simp only [Catalogue.reaches, if_neg hne, List.contains_nil, Bool.false_eq_true, if_false,
        List.append_nil] at hderived
      cases ht : seeing.lookup? heir with
      | none => simp [ht, Catalogue.reaches] at hderived
      | some t => simp [ht, (lookup?_seeing ht).1, Catalogue.reaches] at hderived
    exact hsame ▸ hlies
  · rw [(lookup?_seeing ht).2] at hf
    cases hf

def shown : Charge := ⟨⟨0, 0, .apart 0⟩, .ofName "T"⟩

def showing : Machine :=
  { memory := { next := 1 }, own := { world := some (shown.type, shown.place) }
    care := { alive := [shown] } }

/-- What inputs were given in a run that succeeds, and how many values went astray and references were
left dangling. -/
def given : EStateM.Result ScriptError Machine (Option Value) → Option (List Use × Nat × Nat)
  | .ok _ m => some (m.watch.uses, m.care.strays.length, m.watch.dangling.length)
  | .error _ _ => none

theorem looking_gives_sound_data :
    looking.Edited ∧ compile looking seeing {} = .ok lookingProgram ∧
      ∃ v m', lookingProgram.execute (invokeUnder (fun _ => Native.silent) 2 []) .own [] none
          { catalogue := seeing } showing = .ok v m' ∧
        m'.watch.uses = [⟨shown.place, .ofName "T", [shown]⟩] ∧
        ∀ u ∈ m'.watch.uses, u ∈ showing.watch.uses ∨ u.Sound plain := by
  have hnone : ∀ f, Context.Registers { catalogue := seeing } f := by
    intro f number body p _ hbody
    cases hbody
  have hbuilt : Context.Built plain { catalogue := seeing } := by
    refine ⟨filed_seeing, ?_, fun _ _ f _ => hnone f⟩
    rintro p ⟨number, body, hbody, -⟩
    cases hbody
  have hfair : showing.Fair plain [] [shown] showing.watch.uses := by
    refine ⟨List.forall_mem_singleton.mpr Nat.zero_lt_one, fun _ hv => hv, List.forall_mem_nil _,
      fun seat type place hworld => ?_, fun _ hu => .inl hu⟩
    cases seat with
    | own =>
      cases hworld
      exact ⟨shown, List.mem_cons_self, .self fun _ => ⟨rfl, rfl⟩⟩
    | spare => cases hworld
  have hgiven : given (lookingProgram.execute (invokeUnder (fun _ => Native.silent) 2 []) .own [] none
      { catalogue := seeing } showing) = some ([⟨shown.place, .ofName "T", [shown]⟩], 0, 0) := by
    decide +kernel
  have hsound := (execute_gives_sound_data (fun _ => Native.silent) (fun _ => Native.honest_silent)
    hbuilt ⟨⟨looking, seeing, {}, edited_looking, compile_looking, filed_seeing, .refl _,
      embeds_seeing⟩, fun _ _ f _ _ => hnone f⟩ 2 [] .own [] none showing hfair
    ⟨List.forall_mem_nil _, fun _ _ hi => nomatch hi⟩).2
  cases hr : lookingProgram.execute (invokeUnder (fun _ => Native.silent) 2 []) .own [] none
      { catalogue := seeing } showing with
  | error e m' =>
    rw [hr] at hgiven
    cases hgiven
  | ok v m' =>
    rw [hr] at hgiven
    obtain ⟨huses, hstrays, hdangling⟩ : m'.watch.uses = _ ∧ m'.care.strays.length = 0 ∧
        m'.watch.dangling.length = 0 := by
      simpa [given] using hgiven
    exact ⟨edited_looking, compile_looking, v, m', rfl, huses, hsound.ok hr ⟨hstrays, hdangling⟩⟩

end Program

end Flowscript
