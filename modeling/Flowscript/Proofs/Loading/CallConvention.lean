import Flowscript.Proofs.Graph.LinkWiring
import Flowscript.Proofs.Loading.BodyLifetimes
import Flowscript.Proofs.Loading.ScriptTypes
import Flowscript.Proofs.Run.LoopVisits
import Flowscript.Proofs.Types.ChangeAnnouncements
import Flowscript.Proofs.Types.OverloadChoice

/-! # How arguments reach a body

A function of a script declares its parameters in the order in which the program behind it takes its
arguments: the world, the owner, and those that its entry gives out. So arguments that the function accepts
are as many as the program asks for, and each comes to what its parameter stands for.
-/
namespace Flowscript

namespace Value

/-- What an output of the entry holds that is given an argument. -/
def bound (v : Value) : SlotState :=
  match v.place? with
  | some place => .borrowed place
  | none => .null

def IsHollow (v : Value) : Prop := v.isNull = true ∧ v.form.isPointer = false

end Value

/-- The arguments of a call, taken apart as the function declares its parameters. -/
structure Parcel where
  world : Option Value
  this : Option Value
  params : List Value

namespace Parcel

def args (a : Parcel) : List Value := a.world.toList ++ a.this.toList ++ a.params

/-- There is a world if the function answers an event, and an owner unless it is static; both are there and of
the declared types, and the others fit the declared parameters one by one. -/
structure Meets (a : Parcel) (s : GraphSignature) (worldType : String) (type : TypeId) : Prop where
  hasWorld : a.world.isSome = s.event.isSome
  world : ∀ v ∈ a.world, v.type = .ofName worldType ∧ v.isNull = false
  hasThis : a.this.isSome = !s.isStatic
  this : ∀ v ∈ a.this, v.type = type ∧ v.isNull = false
  params : List.Forall₂ (fun (d : ParamDecl) v => Function.Fits (.ofName d.type, d.form) v.argument)
    s.params a.params

variable {s : GraphSignature} {worldType : String} {type : TypeId}

theorem exists_split {b : Bool} {q : Param} {ps : List Param} {args : List Value}
    (h : List.Forall₂ Function.Fits (((if b then [q] else []) ++ ps).map Param.shape) (args.map Value.argument)) :
    ∃ (first : Option Value) (rest : List Value), args = first.toList ++ rest ∧ first.isSome = b ∧
      (∀ v ∈ first, Function.Fits q.shape v.argument) ∧
      List.Forall₂ Function.Fits (ps.map Param.shape) (rest.map Value.argument) := by
  cases b with
  | false => exact ⟨none, args, rfl, rfl, fun v hv => (by cases hv), h⟩
  | true =>
    cases args with
    | nil => cases h
    | cons v rest =>
      obtain ⟨hv, hrest⟩ := List.forall₂_cons.mp h
      refine ⟨some v, rest, rfl, rfl, fun w hw => ?_, hrest⟩
      cases hw
      exact hv

theorem exists_meets {g : Graph} {number : Nat} {args : List Value}
    (h : (Loader.functionOf worldType type g number).check (args.map Value.argument) = .ok ()) :
    ∃ a : Parcel, args = a.args ∧ a.Meets g.signature worldType type := by
  have hnull : ∀ {id : TypeId} {v : Value}, Function.Fits (id, .ref) v.argument →
      v.type = id ∧ v.isNull = false :=
    fun hv => ⟨hv.1, Bool.eq_false_iff.mpr fun hn => Bool.noConfusion (hv.2.2 hn)⟩
  have hfits := Function.check_eq_ok_iff.mp h
  rw [Loader.functionOf, List.append_assoc] at hfits
  obtain ⟨world, rest, rfl, hasWorld, hworld, hrest⟩ := exists_split hfits
  have hstatic : (if g.signature.isStatic then [] else [⟨"this", type, .ref⟩] : List Param) =
      if !g.signature.isStatic then [⟨"this", type, .ref⟩] else [] := by
    cases g.signature.isStatic <;> rfl
  rw [hstatic] at hrest
  obtain ⟨this, params, rfl, hasThis, hthis, hparams⟩ := exists_split hrest
  rw [List.map_map, List.forall₂_map_left_iff, List.forall₂_map_right_iff] at hparams
  exact ⟨⟨world, this, params⟩, (List.append_assoc _ _ _).symm, hasWorld, fun v hv => hnull (hworld v hv),
    hasThis, fun v hv => hnull (hthis v hv), hparams⟩

end Parcel

namespace Program

/-- An output of the entry is there for a declared parameter. -/
def Serves (g : Graph) (c : Catalogue) (p : Program) (d : ParamDecl) (id : PinId) : Prop :=
  (∃ q, g.pin? id = some q ∧ q.direction = .output ∧ q.name = d.name ∧ q.type = .data d.type d.form) ∧
    p.typeOf c id = some (.ofName d.type)

/-- What a call does with its arguments before anything else runs. They are as many as the program asks for; the
world that the call enters and the owner of the function are what was given for them, and the entry has an
output for every declared parameter. Each output is given the argument for its parameter, unless one of these
is null in a form that has no null: then the call fails at the output of the first such argument. -/
structure Welcomes (p : Program) (k : Context) (g : Graph) (a : Parcel) : Prop where
  arity : a.args.length = p.arity
  world : p.worldOf a.args = a.world.map fun v => v.place?.map (v.type, ·)
  this : ∀ seat, (p.scope seat a.args k).this = a.this.bind Value.place?
  binds : ∃ entry, p.node? p.entry = some entry ∧
    List.Forall₂ (p.Serves g k.catalogue) g.signature.params entry.dataOut ∧
    ∀ seat (frame : Frame) machine, frame.slots.size = p.pins.size →
      Ensures (Run.bindArguments 0 entry.dataOut (a.args.drop p.implicitArgs)) (p.scope seat a.args k)
        ⟨frame, machine⟩
        (fun _ b => (∀ v ∈ a.params, ¬ v.IsHollow) ∧
          List.Forall₂ (fun id v => b.frame.state id = v.bound) entry.dataOut a.params)
        fun e _ => ∃ i id v, entry.dataOut[i]? = some id ∧ a.params[i]? = some v ∧ v.IsHollow ∧
          (∀ w ∈ a.params.take i, ¬ w.IsHollow) ∧ e = nullInput id

end Program

namespace Run

variable {sc : Scope} {a : Activation} {index : Nat} {id : PinId} {v : Value}

theorem pinType_of_typeOf {type : TypeId} (h : sc.program.typeOf sc.context.catalogue id = some type) (a : Activation) :
    ∃ t : TypeInfo, t.id = type ∧ pinType id sc a = .ok t a := by
  obtain ⟨handle, hhandle, rfl⟩ := Option.map_eq_some_iff.mp h
  obtain ⟨q, hq, htype⟩ := Option.bind_eq_some_iff.mp hhandle
  refine ⟨_, rfl, ?_⟩
  rw [pinType, Flowscript.bind_of_ok (pin_of_pin? hq a)]
  simp only [htype]
  rfl

theorem ensures_bindArgument (htype : sc.program.typeOf sc.context.catalogue id = some v.type) :
    Ensures (bindArgument index id v) sc a
      (fun _ b => ¬ v.IsHollow ∧ b.frame = (a.frame.set id .empty).set id v.bound)
      fun e _ => v.IsHollow ∧ e = nullInput id := by
  obtain ⟨t, ht, hpinType⟩ := pinType_of_typeOf htype a
  refine Ensures.bind_of_ok hpinType ?_
  rw [if_neg (by rw [ht]; exact fun h => h rfl)]
  have hclear : Ensures (clear id) sc a
      (fun _ b => b.frame = a.frame.set id .empty ∧ b.machine.memory = a.machine.memory) fun _ _ => False :=
    ensures_clear id a
  unfold Value.IsHollow Value.isNull Value.bound
  cases hplace : v.place? with
  | some place =>
    refine Ensures.bind (hclear.mono (fun _ _ h => h) fun _ _ h => h.elim) ?_
    rintro - b ⟨hframe, -⟩
    exact ⟨fun h => (by cases h.1), congrArg (Frame.set · id _) hframe⟩
  | none =>
    cases hform : v.form.isPointer with
    | false => exact ⟨⟨rfl, rfl⟩, rfl⟩
    | true =>
      refine Ensures.bind (hclear.mono (fun _ _ h => h) fun _ _ h => h.elim) ?_
      rintro - b ⟨hframe, -⟩
      exact ⟨fun h => (by cases h.2), congrArg (Frame.set · id _) hframe⟩

theorem ensures_bindArguments (sc : Scope) (a : Activation) {ids : List PinId} {vs : List Value}
    (htypes : List.Forall₂ (fun id v => sc.program.typeOf sc.context.catalogue id = some v.type) ids vs)
    (hnodup : ids.Nodup) (hids : ∀ id ∈ ids, id ∈ a.frame.ids) (index : Nat) :
    Ensures (bindArguments index ids vs) sc a
      (fun _ b => (∀ v ∈ vs, ¬ v.IsHollow) ∧ List.Forall₂ (fun id v => b.frame.state id = v.bound) ids vs ∧
        ∀ o, o ∉ ids → b.frame.state o = a.frame.state o)
      fun e _ => ∃ i id v, ids[i]? = some id ∧ vs[i]? = some v ∧ v.IsHollow ∧
        (∀ w ∈ vs.take i, ¬ w.IsHollow) ∧ e = nullInput id := by
  induction htypes generalizing a index with
  | nil => exact ⟨List.forall_mem_nil _, .nil, fun _ _ => rfl⟩
  | @cons id v ids vs htype _ ih =>
    obtain ⟨hnew, hnodup⟩ := List.nodup_cons.mp hnodup
    obtain ⟨hid, hids⟩ := List.forall_mem_cons.mp hids
    refine Ensures.bind ((ensures_bindArgument htype).mono (fun _ _ h => h) fun e b h =>
      ⟨0, id, v, rfl, rfl, h.1, List.forall_mem_nil _, h.2⟩) ?_
    rintro - b ⟨hv, hframe⟩
    refine (ih _ hnodup (fun o ho => ?_) (index + 1)).mono ?_ ?_
    · rw [hframe, Frame.ids_set, Frame.ids_set]
      exact hids o ho
    · rintro - b' ⟨hvs, hbound, hothers⟩
      refine ⟨List.forall_mem_cons.mpr ⟨hv, hvs⟩, .cons ?_ hbound, fun o ho => ?_⟩
      · rw [hothers id hnew, hframe]
        exact Frame.state_set_self (by rwa [Frame.ids_set])
      · rw [List.mem_cons, not_or] at ho
        obtain ⟨hne, ho⟩ := ho
        rw [hothers o ho, hframe, Frame.state_set_of_ne hne, Frame.state_set_of_ne hne]
    · rintro e b' ⟨i, id', v', hid', hv', hhollow, hbefore, rfl⟩
      exact ⟨i + 1, id', v', hid', hv', hhollow, List.forall_mem_cons.mpr ⟨hv, hbefore⟩, rfl⟩

end Run

namespace Program

open Flowscript.Graph

variable {g : Graph} {c c' : Catalogue} {s : Setting} {p : Program}

theorem pin?_of_mem_nodePins (hg : g.Filed) {id : NodeId} {q : Pin}
    (hq : q ∈ g.nodePins id) : g.pin? q.id = some q := by
  unfold nodePins at hq
  split at hq
  · obtain ⟨slot, -, hslot⟩ := List.mem_filterMap.mp hq
    rw [hg.pin slot q hslot]
    exact hslot
  · cases hq

theorem specsToward_entry {specs : List PinSpec} {σ : GraphSignature}
    (h : NodeKind.entry.expectedPins σ c = .ok specs) :
    specsToward specs .output false = σ.params.map fun d => .dataOut d.name d.type d.form := by
  cases h
  have hflow : specsToward (if σ.pure then [] else [.flowOut "Then"]) .output false = [] := by
    cases σ.pure <;> rfl
  rw [specsToward_append, hflow, List.nil_append, specsToward, List.filter_eq_self]
  intro s hs
  obtain ⟨d, -, rfl⟩ := List.mem_map.mp hs
  rfl

theorem exists_entry (hg : g.Filed) (h : compile g c s = .ok p) (hc : c.Filed) (hc' : c'.Filed)
    (hkeeps : c.Keeps c') : ∃ entry, p.node? p.entry = some entry ∧ entry.dataOut.Nodup ∧
      (∀ id ∈ entry.dataOut, (p.pin? id).isSome) ∧
      List.Forall₂ (p.Serves g c') g.signature.params entry.dataOut := by
  have ha := assembled_of_assemble hg.node hg.pin (assemble_of_compile h)
  obtain ⟨-, hnodes, -, -, -⟩ := findings_eq_nil_iff.mp (findings_of_compile h)
  obtain ⟨n, hn, hid⟩ := ha.entry
  obtain ⟨hlive, hkind⟩ := List.mem_filter.mp hn
  obtain ⟨entry, hentry⟩ := ha.node_exists n.id n (node?_of_node_id hg.node hlive)
  obtain ⟨n', hn', hcompile⟩ := ha.node_of n.id entry hentry
  obtain rfl : n = n' := Option.some.inj ((node?_of_node_id hg.node hlive).symm.trans hn')
  obtain ⟨op, -, rfl⟩ := compileNode_eq hcompile
  obtain ⟨specs, hspecs, hfits⟩ := (hnodes n hlive).fitting
  rw [eq_of_beq hkind] at hspecs
  have hserves := fits_toward hfits .output false
  rw [specsToward_entry hspecs, List.forall₂_map_left_iff] at hserves
  have hpin : ∀ q ∈ g.pinsToward n.id .output false, g.pin? q.id = some q := fun q hq =>
    pin?_of_mem_nodePins hg (mem_pinsToward_iff.mp hq).1
  rw [hid]
  refine ⟨_, hentry, ?_, fun id hmem => ?_, ?_⟩
  · refine List.Nodup.sublist ?_ (nodup_pinsOf hg.pin n)
    have hpins : g.nodePins n.id = g.pinsOf n := by rw [nodePins, hn']
    rw [← hpins]
    exact List.Sublist.map _ List.filter_sublist
  · obtain ⟨q, hq, rfl⟩ := List.mem_map.mp hmem
    exact Option.isSome_iff_exists.mpr (ha.pin_exists q.id q (hpin q hq))
  · refine List.forall₂_map_right_iff.mpr (List.forall₂_iff_zip.mpr ⟨hserves.length_eq, fun {d q} hmem => ?_⟩)
    obtain ⟨hdirection, hname, htype⟩ := PinSpec.fits_iff.mp ((List.forall₂_iff_zip.mp hserves).2 hmem)
    have hq := hpin q (List.of_mem_zip hmem).2
    exact ⟨⟨q, hq, hdirection, hname, htype⟩, ha.typeOf hc hc' hkeeps hq htype⟩

/-- However arguments are accepted by a function that is declared from a graph, its program takes them so. -/
theorem welcomes {a : Parcel} {worldType : String} {type : TypeId} {k : Context} (hg : g.Filed)
    (h : compile g c s = .ok p) (hc : c.Filed) (hk : k.catalogue.Filed) (hkeeps : c.Keeps k.catalogue)
    (hworld : s.hasWorld = g.signature.event.isSome)
    (hthis : s.thisType = if g.signature.isStatic then none else some type)
    (ha : a.Meets g.signature worldType type) : p.Welcomes k g a := by
  have hfrom := assembles_of_assemble (assemble_of_compile h)
  have hpworld : p.hasWorld = a.world.isSome := by rw [hfrom.hasWorld, hworld, ha.hasWorld]
  have hpthis : p.thisType.isSome = a.this.isSome := by
    rw [hfrom.thisType, hthis, ha.hasThis]
    cases g.signature.isStatic <;> rfl
  obtain ⟨world, this, params⟩ := a
  have himplicit : p.implicitArgs = (world.toList ++ this.toList).length := by
    rw [implicitArgs, hpworld, hpthis]
    cases world <;> cases this <;> rfl
  obtain ⟨entry, hentry, hnodup, hpins, hserves⟩ := exists_entry hg h hc hk hkeeps
  have hparams : (Parcel.args ⟨world, this, params⟩).drop p.implicitArgs = params := by
    rw [himplicit, Parcel.args, List.drop_left]
  refine ⟨?_, ?_, fun seat => ?_, entry, hentry, hserves, fun seat frame machine hsize => ?_⟩
  · rw [arity, himplicit, Parcel.args, List.length_append, hfrom.params, ← ha.params.length_eq]
  · rw [worldOf, hpworld]
    cases world <;> rfl
  · have hindex : p.thisIndex? = this.map fun _ => world.isSome.toNat := by
      rw [thisIndex?, hpworld]
      cases hthis : p.thisType <;> cases this <;> simp_all
    rw [scope, hindex, Parcel.args]
    cases world <;> cases this <;> rfl
  · rw [hparams]
    have htypes : List.Forall₂ (fun id v => p.typeOf k.catalogue id = some v.type) entry.dataOut params := by
      refine List.forall₂_iff_get.mpr ⟨hserves.length_eq.symm.trans ha.params.length_eq, fun i hi hi' => ?_⟩
      have hd : i < g.signature.params.length := hserves.length_eq ▸ hi
      have hfits := (List.forall₂_iff_get.mp ha.params).2 i hd hi'
      rw [((List.forall₂_iff_get.mp hserves).2 i hd hi).2]
      exact congrArg some hfits.1.symm
    refine (Run.ensures_bindArguments (p.scope seat _ k) ⟨frame, machine⟩ htypes hnodup
      (fun id hid => ?_) 0).mono (fun _ _ h => ⟨h.1, h.2.1⟩) fun _ _ h => h
    obtain ⟨q, hq⟩ := Option.isSome_iff_exists.mp (hpins id hid)
    obtain ⟨hlow, hhigh⟩ := slot?_bound hq
    exact Frame.mem_ids.mpr ⟨by omega, by dsimp only; omega⟩

end Program

namespace Loader

theorem settledOf_eq_ready_iff {c : Catalogue} {b : PendingBody} {q : Program} :
    settledOf c b = some (.ready q) ↔ Program.compile b.graph c b.setting = .ok q := by
  unfold settledOf
  split
  · next p hp => rw [hp, Option.some.injEq, BodyState.ready.injEq, Except.ok.injEq]
  all_goals next hp => rw [hp]; exact ⟨fun h => (nomatch h), fun h => (nomatch h)⟩

end Loader

namespace Shared

variable {s s' s'' : Shared} {scripts : List Script} {cs : List Change}

/-- What the function declared for a body accepts, the program behind the body takes, whatever the host does
afterwards. -/
theorem Compiles.exists_welcomes {ps : List Loader.Piece} {first i : Nat} {p : Loader.Piece} {name : String}
    {q : Program} {worldType : String} {args : List Value} (h : Compiles s' ps first) (hc : s'.catalogue.Filed)
    (hafter : run (cs.map .host) s' = some s'') (hp : ps[i]? = some p) (hfiled : p.graph.Filed)
    (hbody : s''.bodies[first + i]? = some ⟨name, .ready q⟩)
    (hcheck : (p.function worldType s'.catalogue (first + i)).check (args.map Value.argument) = .ok ()) :
    ∃ a : Parcel, args = a.args ∧ a.Meets p.graph.signature worldType (s'.catalogue.info p.handle).id ∧
      q.Welcomes s''.workspace.context p.graph a := by
  obtain ⟨state, hsettled, hbody'⟩ := h i p hp
  obtain rfl : state = .ready q := by
    rw [bodies_changes cs hafter, hbody'] at hbody
    exact congrArg ScriptBody.state (Option.some.inj hbody)
  obtain ⟨a, rfl, ha⟩ := Parcel.exists_meets hcheck
  exact ⟨a, rfl, ha, Program.welcomes hfiled ((Loader.settledOf_eq_ready_iff.mp hsettled)) hc
    (run_announces hc hafter).1
    (run_evolves_named hafter).keeps rfl rfl ha⟩

theorem filed_load (hc : s.catalogue.Filed) (hs : s.act (.load scripts) = some s') : s'.catalogue.Filed := by
  have hload : run [.loader (.load scripts)] s = some s' := by
    rw [run, step, hs]
    rfl
  exact (run_announces hc hload).1

/-- Whatever a load declares for a graph that keeps nodes and pins in the slots of their own numbers: if its body
compiled, arguments that the function accepts are what its signature asks for, and its program takes them so,
whatever the host does afterwards. -/
theorem load_keeps_convention (hc : s.catalogue.Filed) (hs : s.act (.load scripts) = some s')
    (hafter : run (cs.map .host) s' = some s'') :
    ∃ ps, Loads s scripts s' ps ∧ ∀ i p name q, ps[i]? = some p → p.graph.Filed →
      s''.bodies[s.bodies.size + i]? = some ⟨name, .ready q⟩ →
      s''.workspace.context.Runs (s.bodies.size + i) q ∧
        ∀ args,
          (p.function s.loader.worldType s'.catalogue (s.bodies.size + i)).check (args.map Value.argument) = .ok () →
          ∃ a : Parcel, args = a.args ∧ a.Meets p.graph.signature s.loader.worldType p.script.type ∧
            q.Welcomes s''.workspace.context p.graph a := by
  obtain ⟨ps, hloads, hcompiles, -⟩ := exists_loads hs
  have hfiled := filed_load hc hs
  refine ⟨ps, hloads, fun i p name q hp hgraph hbody => ⟨Context.runs_of_body hbody, fun args hcheck => ?_⟩⟩
  rw [← hfiled.info_id (hloads.types p (List.mem_of_getElem? hp))]
  exact hcompiles.exists_welcomes hfiled hafter hp hgraph hbody hcheck

/-- A function that takes a pointer to a value of the type it belongs to. -/
def bearing : Graph :=
  EditOp.apply (.addNode .entry) {}
    { name := "F", signature := { params := [⟨"p", "S", .ptr⟩], isStatic := true } }

def bearer : Script := { name := "S", functions := [bearing] }

theorem edited_bearing : bearing.Edited := by
  refine .edit (.new "F" _) _ _ ?_
  unfold Graph.Numbered
  decide

theorem compile_bearing {c : Catalogue} {h : Handle} (setting : Setting) (hS : c.handleNamed? "S" = some h)
    (hvisible : (c.info h).visible = true) (hlayout : (c.info h).layout = ⟨0, 1⟩) :
    ∃ q, Program.compile bearing c setting = .ok q := by
  have hlookup : c.lookupName? "S" = some (c.info h) := by
    rw [Catalogue.lookupName?, hS]
    rfl
  have hnodes : bearing.liveNodes = [{ id := ⟨1⟩, kind := .entry, firstPin := ⟨1⟩, pinCount := 2 }] := rfl
  have hpins : bearing.livePins =
      [{ id := ⟨1⟩, node := ⟨1⟩, direction := .output, name := "Then", type := .flow },
        { id := ⟨2⟩, node := ⟨1⟩, direction := .output, name := "p", type := .data "S" .ptr }] := rfl
  have herrors : bearing.errors c setting.script = [] := by
    have hsignature : Graph.checkSignature c bearing.signature = [] := by
      change Graph.checkSignature c { params := [⟨"p", "S", .ptr⟩], isStatic := true } = []
      simp only [Graph.checkSignature, Graph.checkParams, Graph.checkType, hlookup, hvisible]
      rfl
    have hentry : bearing.checkNode c { id := ⟨1⟩, kind := .entry, firstPin := ⟨1⟩, pinCount := 2 } = [] := by
      rfl
    rw [Graph.errors, Graph.findings, hnodes, List.flatMap_cons, hentry, hsignature]
    rfl
  simp only [Program.compile_eq_ok_iff, Program.assemble, hpins, hnodes, Program.placePins, Program.placePin, hS,
    hlayout, Program.compileNodes, Program.compileNode, Program.opOf, bind, Except.bind]
  exact ⟨_, edited_bearing.overflows_eq_false, herrors, rfl⟩

theorem exists_bare {worldType : String} {script : Script} {w : Workspace} {es : List ScriptError}
    {handles : List Handle} {c : Catalogue} {k : Context} (hc : w.catalogue.Filed)
    (hw : w.catalogue.contains script.type = false) (hfields : script.fields = [])
    (h : Loader.Builds worldType [script] w es handles c k) : ∃ j heirs, c.handle? script.type = some j ∧
      c.info j = Catalogue.withHeirs heirs (Aggregate.info {} script.name ⟨0, 1⟩ []) := by
  have hdeclares := h.declares
  rw [Loader.schedule_single hw] at hdeclares
  change Loader.DeclaresAll _ ([] ++ (_, _) :: []) _ _ _ at hdeclares
  obtain ⟨c₁, fs, ms, j, heirs, -, hjudged, -, hhandle, hinfo⟩ :=
    hdeclares.exists_type hc hw (List.forall_mem_nil _)
  rw [hfields] at hjudged
  cases hjudged
  exact ⟨j, heirs, hhandle, hinfo⟩

theorem exists_furnished_bare {worldType : String} {script : Script} {w : Workspace} {es : List ScriptError}
    {handles : List Handle} {c : Catalogue} {k : Context} (hc : w.catalogue.Filed)
    (hw : w.catalogue.contains script.type = false) (hnone : w.context.bodies.size = 0) (hfields : script.fields = [])
    (h : Loader.Builds worldType [script] w es handles c k) : ∃ j heirs, c.handle? script.type = some j ∧
      Loader.allPieces w.catalogue [script] handles =
        (Loader.firstNamed [] script.functions).map (⟨script, j, ·⟩ : Graph → Loader.Piece) ∧
      k.catalogue.info j = (Catalogue.withHeirs heirs (Aggregate.info {} script.name ⟨0, 1⟩ [])).addFunctions
        ((Loader.firstNamed [] script.functions).zipIdx.map fun q =>
        Loader.functionOf worldType script.type q.1 q.2) := by
  obtain ⟨j, heirs, hhandle, hinfo⟩ := exists_bare hc hw hfields h
  obtain ⟨i, hi, hpieces⟩ := Loader.pieces_sole hw h
  obtain rfl : j = i := Option.some.inj (hhandle.symm.trans hi)
  refine ⟨j, heirs, hhandle, hpieces, ?_⟩
  have hfiled := h.declares.filed hc
  have hall :
      ((((Loader.firstNamed [] script.functions).map
        (⟨script, j, ·⟩ : Graph → Loader.Piece)).zipIdx).filter (·.1.handle == j)) =
      ((Loader.firstNamed [] script.functions).map (⟨script, j, ·⟩ : Graph → Loader.Piece)).zipIdx := by
    refine List.filter_eq_self.mpr fun q hq => beq_iff_eq.mpr ?_
    obtain ⟨g, -, hg⟩ := List.mem_map.mp (List.fst_mem_of_mem_zipIdx hq)
    exact (congrArg Loader.Piece.handle hg).symm
  rw [h.furnished.catalogue, Loader.info_furnish (hfiled.lt_size hhandle), hinfo, hpieces]
  dsimp only
  rw [hnone, hall, List.zipIdx_map, List.map_map]
  refine congrArg _ (List.map_congr_left fun q _ => ?_)
  show Loader.functionOf worldType (c.info j).id q.1 q.2 = _
  rw [hfiled.info_id hhandle]

def unladen : Shared := { loader := { worldType := "World" }, workspace := {} }

theorem filed_unladen : unladen.catalogue.Filed := Catalogue.Plain.empty.filed

/-- When a script without fields is loaded first, its functions are put on an empty type, and their bodies run. The
events are those that were there. -/
theorem exists_load_alone (script : Script) (hfresh : s.loader.Fresh) (hs : s.catalogue.Filed)
    (hnew : s.catalogue.contains script.type = false) (hempty : s.bodies.size = 0) (hfields : script.fields = [])
    (hcompile : ∀ (c : Catalogue) (j : Handle) (setting : Setting), c.events = s.catalogue.events →
      c.handleNamed? script.name = some j → (c.info j).visible = true → (c.info j).isOwnable = true →
      (c.info j).layout = ⟨0, 1⟩ → ∀ g ∈ script.functions, ∃ q, Program.compile g c setting = .ok q) :
    ∃ s' j heirs, s.act (.load [script]) = some s' ∧ s'.catalogue.handleNamed? script.name = some j ∧
      s'.catalogue.info j = (Catalogue.withHeirs heirs (Aggregate.info {} script.name ⟨0, 1⟩ [])).addFunctions
        ((Loader.firstNamed [] script.functions).zipIdx.map fun q =>
          Loader.functionOf s.loader.worldType script.type q.1 q.2) ∧
      s'.bodies.size = (Loader.firstNamed [] script.functions).length ∧
      ∀ (i : Nat) (g : Graph), (Loader.firstNamed [] script.functions)[i]? = some g → ∃ q,
        Program.compile g s'.catalogue ((⟨script, j, g⟩ : Loader.Piece).setting script.type) = .ok q ∧
        s'.bodies[i]? = some { name := s!"{script.name}::{g.name}", state := .ready q } := by
  obtain ⟨l, hl⟩ : ∃ l, l = s.loader := ⟨_, rfl⟩
  obtain ⟨w, hw⟩ : ∃ w, w = s.workspace := ⟨_, rfl⟩
  obtain ⟨es, handles, c, k, hbuilds⟩ := Loader.exists_builds l.worldType [script] (l.unload w).2
  have hcontext : (l.unload w).2.context = s.workspace.context := by rw [hl, hfresh.unload, hw]
  have hsame : (l.unload w).2.catalogue = s.catalogue := congrArg Context.catalogue hcontext
  have hfree : (l.unload w).2.catalogue.contains script.type = false := hsame ▸ hnew
  have hfiled : (l.unload w).2.catalogue.Filed := hsame ▸ hs
  have hnone : (l.unload w).2.context.bodies.size = 0 := by
    rw [hcontext]
    exact hempty
  obtain ⟨j, heirs, hhandle, hpieces, hfinal⟩ := exists_furnished_bare hfiled hfree hnone hfields hbuilds
  have hevents : k.catalogue.events = s.catalogue.events := by
    rw [hbuilds.furnished.outfits.events, ← hsame]
    exact hbuilds.declares.evolves.events_eq
  have hface := hfinal
  rw [TypeInfo.addFunctions_eq, Catalogue.withHeirs_eq, Aggregate.info, TypeInfo.addFunctions_eq] at hface
  have hname : k.catalogue.handleNamed? script.name = some j := by
    rw [Catalogue.handleNamed?, hbuilds.furnished.outfits.handle?_eq,
      show TypeId.ofName script.name = script.type from rfl,
      hhandle, Option.filter_some, show (k.catalogue.info j).name = script.name from congrArg TypeInfo.name hface]
    simp
  have hready : ∀ g ∈ Loader.firstNamed [] script.functions, ∀ setting,
      ∃ q, Program.compile g k.catalogue setting = .ok q :=
    fun g hg setting => hcompile k.catalogue j setting hevents hname (congrArg TypeInfo.visible hface)
      (congrArg TypeInfo.isOwnable hface) (congrArg TypeInfo.layout hface) g (Loader.mem_of_firstNamed hg)
  have hthrough : (l.load [script] w).1.isSome := by
    rw [Loader.isSome_load, hbuilds.through_iff, Loader.allPending, hpieces]
    intro b hb
    obtain ⟨⟨p, number⟩, hp, rfl⟩ := List.mem_map.mp hb
    obtain ⟨g, hg, rfl⟩ := List.mem_map.mp (List.fst_mem_of_mem_zipIdx hp)
    obtain ⟨q, hq⟩ := hready g hg ((⟨script, j, g⟩ : Loader.Piece).setting (c.info j).id)
    rw [Loader.settledOf_eq_ready_iff.mpr hq]
    rfl
  obtain ⟨s', -, hworkspace, hs', -⟩ := run_load (s := s) (hl ▸ hw ▸ hthrough) []
  rw [← hl, ← hw] at hworkspace
  have hcontext' : s'.workspace.context = (Loader.built l.worldType [script] (l.unload w).2).2.workspace.context := by
    rw [hworkspace, (Loader.load_eq_built l [script] w).2.2]
  have hcatalogue : s'.catalogue = k.catalogue := by
    rw [Shared.catalogue, Workspace.catalogue, hcontext', hbuilds.context]
  rw [Loader.isSome_load] at hthrough
  refine ⟨s', j, heirs, hs', hcatalogue ▸ hname, hl ▸ hcatalogue ▸ hfinal, ?_, fun i g hg => ?_⟩
  · rw [Shared.bodies, hcontext', hbuilds.size_bodies, hpieces, hnone, List.length_map, Nat.zero_add]
  · have hpiece : (Loader.allPieces (l.unload w).2.catalogue [script] handles)[i]? = some ⟨script, j, g⟩ := by
      rw [hpieces, List.getElem?_map, hg]
      rfl
    obtain ⟨state, hstate, hbody⟩ := hbuilds.new_body hthrough hpiece
    obtain ⟨q, hq⟩ := hready g (List.mem_of_getElem? hg) ((⟨script, j, g⟩ : Loader.Piece).setting script.type)
    have hsettled : Loader.settledOf k.catalogue ((⟨script, j, g⟩ : Loader.Piece).pending k.catalogue
        ((l.unload w).2.context.bodies.size + i)) = some (.ready q) := by
      rw [Loader.settledOf_eq_ready_iff, Loader.Piece.pending,
        show (k.catalogue.info j).id = script.type from congrArg TypeInfo.id hface]
      exact hq
    cases hstate.symm.trans hsettled
    rw [hnone, Nat.zero_add] at hbody
    refine ⟨q, hcatalogue ▸ hq, ?_⟩
    rw [Shared.bodies, hcontext', hbody]
    rfl

theorem exists_load_bare (script : Script) (hfields : script.fields = [])
    (hcompile : ∀ (c : Catalogue) (j : Handle) (setting : Setting), c.handleNamed? script.name = some j →
      (c.info j).visible = true → (c.info j).isOwnable = true → (c.info j).layout = ⟨0, 1⟩ →
      ∀ g ∈ script.functions, ∃ q, Program.compile g c setting = .ok q) :
    ∃ s' j heirs, unladen.act (.load [script]) = some s' ∧ s'.catalogue.handleNamed? script.name = some j ∧
      s'.catalogue.info j = (Catalogue.withHeirs heirs (Aggregate.info {} script.name ⟨0, 1⟩ [])).addFunctions
        ((Loader.firstNamed [] script.functions).zipIdx.map fun q => Loader.functionOf "World" script.type q.1 q.2) ∧
      s'.bodies.size = (Loader.firstNamed [] script.functions).length ∧
      ∀ (i : Nat) (g : Graph), (Loader.firstNamed [] script.functions)[i]? = some g → ∃ q,
        Program.compile g s'.catalogue ((⟨script, j, g⟩ : Loader.Piece).setting script.type) = .ok q ∧
        s'.bodies[i]? = some { name := s!"{script.name}::{g.name}", state := .ready q } :=
  exists_load_alone script ⟨rfl, rfl⟩ filed_unladen (by simp [Shared.catalogue, unladen, Workspace.catalogue,
    Catalogue.contains]) rfl hfields fun c j setting _ => hcompile c j setting

theorem exists_load_bearer : ∃ s' q, unladen.act (.load [bearer]) = some s' ∧ s'.bodies.size = 1 ∧
    s'.bodies[0]? = some ⟨"S::F", .ready q⟩ := by
  obtain ⟨s', j, heirs, hs', -, -, hsize, hbodies⟩ := exists_load_bare bearer rfl
    fun c h setting hS hvisible _ hlayout => List.forall_mem_singleton.mpr (compile_bearing setting hS hvisible hlayout)
  obtain ⟨q, -, hq⟩ := hbodies 0 bearing rfl
  exact ⟨s', q, hs', hsize, hq⟩

theorem Loads.sole {script : Script} {g : Graph} {ps : List Loader.Piece} (h : Loads s [script] s' ps)
    (hfunctions : script.functions = [g]) (hsize : s'.bodies.size = s.bodies.size + 1) :
    ∃ p, ps = [p] ∧ p.script = script ∧ p.graph = g := by
  rw [h.size, Nat.add_left_cancel_iff] at hsize
  obtain ⟨p, rfl⟩ := List.length_eq_one_iff.mp hsize
  obtain ⟨hscript, hgraph⟩ := h.scripts p (List.mem_singleton_self p)
  have hscript := List.mem_singleton.mp hscript
  rw [hscript, hfunctions] at hgraph
  exact ⟨p, rfl, hscript, List.mem_singleton.mp hgraph⟩

theorem check_bearing (worldType : String) (type : TypeId) (number : Nat) {form : Form}
    (h : Form.ptr.accepts form = true) :
    (Loader.functionOf worldType type bearing number).check
      ([Value.null (.ofName "S") form].map Value.argument) = .ok () :=
  Function.check_eq_ok_iff.mpr (.cons ⟨rfl, h, fun _ => rfl⟩ .nil)

/-- A null reference is accepted as well, but the entry takes none. -/
theorem load_bearer_accepts_hollow : ∃ s' q f args, unladen.act (.load [bearer]) = some s' ∧
    s'.bodies[0]? = some ⟨"S::F", .ready q⟩ ∧ f = Loader.functionOf "World" (.ofName "S") bearing 0 ∧
      f.check (args.map Value.argument) = .ok () ∧ ∃ entry id, q.node? q.entry = some entry ∧
        ∀ seat (frame : Frame) machine, frame.slots.size = q.pins.size →
          Ensures (Run.bindArguments 0 entry.dataOut (args.drop q.implicitArgs))
            (q.scope seat args s'.workspace.context) ⟨frame, machine⟩ (fun _ _ => False)
            fun e _ => e = nullInput id := by
  obtain ⟨s', q, hs', hsize, hbody⟩ := exists_load_bearer
  obtain ⟨ps, hloads, hcompiles, -⟩ := exists_loads hs'
  obtain ⟨p, rfl, -, hbearing⟩ := hloads.sole (g := bearing) rfl hsize
  have hcheck := check_bearing "World" (.ofName "S") 0 (by decide : Form.ptr.accepts .ref = true)
  have haccepted : (p.function "World" s'.catalogue (unladen.bodies.size + 0)).check
      ([Value.null (.ofName "S") .ref].map Value.argument) = .ok () := by
    rw [Loader.Piece.function, hbearing]
    exact check_bearing _ _ _ (by decide)
  have hafter : run (([] : List Change).map .host) s' = some s' := rfl
  obtain ⟨a, ha, hmeets, hwelcome⟩ := hcompiles.exists_welcomes (filed_load filed_unladen hs') hafter (i := 0) rfl
    (hbearing ▸ edited_bearing.structured.filed) hbody haccepted
  rw [hbearing] at hmeets hwelcome
  obtain ⟨entry, hentry, hserves, hbinds⟩ := hwelcome.binds
  obtain ⟨id, rest, -, hrest, hids⟩ := List.forall₂_cons_left_iff.mp hserves
  rw [List.forall₂_nil_left_iff.mp hrest] at hids
  obtain ⟨world, this, params⟩ := a
  obtain rfl : world = none := Option.isNone_iff_eq_none.mp (Option.isSome_eq_false_iff.mp hmeets.hasWorld)
  obtain rfl : this = none := Option.isNone_iff_eq_none.mp (Option.isSome_eq_false_iff.mp hmeets.hasThis)
  refine ⟨s', q, _, _, hs', hbody, rfl, hcheck, entry, id, hentry, fun seat frame machine hsize => ?_⟩
  rw [ha]
  refine (hbinds seat frame machine hsize).mono
    (fun _ b h => h.1 _ (ha ▸ List.mem_singleton_self _) ⟨rfl, rfl⟩) ?_
  rintro e b ⟨i, id', v, hid', -, -, -, rfl⟩
  rw [hids] at hid'
  rw [List.mem_singleton.mp (List.mem_of_getElem? hid')]

def greet : EventSignature where
  name := "Greet"
  params := [⟨"p", .ofName "S", .ref⟩, ⟨"q", .ofName "S", .ptr⟩]
  result := none

/-- A function that answers it, of a value that it belongs to. -/
def greeting : Graph :=
  EditOp.apply (.addNode .entry) {}
    { name := "F", signature := { params := [⟨"p", "S", .ref⟩, ⟨"q", "S", .ptr⟩], event := some "Greet" } }

def greeter : Script := { name := "S", functions := [greeting] }

theorem edited_greeting : greeting.Edited := by
  refine .edit (.new "F" _) _ _ ?_
  unfold Graph.Numbered
  decide

def inviting : Shared where
  loader := { worldType := "World" }
  workspace := { context := { catalogue := (Catalogue.registerEvent {} greet).2 } }

theorem filed_inviting : inviting.catalogue.Filed where
  named _ _ ht := nomatch ht
  indexed id h hh := by simp [Catalogue.handle?, inviting, Shared.catalogue, Workspace.catalogue,
    Catalogue.registerEvent] at hh

/-- It compiles wherever the event is known, and its type is visible and fits in a frame. -/
theorem compile_greeting {c : Catalogue} {h : Handle} (setting : Setting)
    (hevents : c.events = inviting.catalogue.events)
    (hS : c.handleNamed? "S" = some h) (hvisible : (c.info h).visible = true)
    (hlayout : (c.info h).layout = ⟨0, 1⟩) :
    ∃ q, Program.compile greeting c setting = .ok q := by
  have hlookup : c.lookupName? "S" = some (c.info h) := by
    rw [Catalogue.lookupName?, hS]
    rfl
  have hevent : c.event? "Greet" = some greet := by
    rw [Catalogue.event?, hevents]
    simp [inviting, Shared.catalogue, Workspace.catalogue, Catalogue.registerEvent, greet, List.lookup]
  have hnodes : greeting.liveNodes = [{ id := ⟨1⟩, kind := .entry, firstPin := ⟨1⟩, pinCount := 3 }] := rfl
  have hpins : greeting.livePins =
      [{ id := ⟨1⟩, node := ⟨1⟩, direction := .output, name := "Then", type := .flow },
        { id := ⟨2⟩, node := ⟨1⟩, direction := .output, name := "p", type := .data "S" .ref },
        { id := ⟨3⟩, node := ⟨1⟩, direction := .output, name := "q", type := .data "S" .ptr }] := rfl
  have herrors : greeting.errors c setting.script = [] := by
    have hsignature : Graph.checkSignature c greeting.signature = [] := by
      change Graph.checkSignature c
        { params := [⟨"p", "S", .ref⟩, ⟨"q", "S", .ptr⟩], event := some "Greet" } = []
      have hanswers : Graph.answersEvent
          { params := [⟨"p", "S", .ref⟩, ⟨"q", "S", .ptr⟩], event := some "Greet" } greet = true := by
        simp [Graph.answersEvent, greet]
      simp only [Graph.checkSignature, Graph.checkParams, Graph.checkType, Graph.checkEvent, hlookup, hvisible, hevent,
        hanswers]
      rfl
    have hentry : greeting.checkNode c { id := ⟨1⟩, kind := .entry, firstPin := ⟨1⟩, pinCount := 3 } = [] := by
      rfl
    rw [Graph.errors, Graph.findings, hnodes, List.flatMap_cons, hentry, hsignature]
    rfl
  have hextend : Layout.empty.extend? ⟨0, 1⟩ = some (.empty, 0) := rfl
  simp only [Program.compile_eq_ok_iff, Program.assemble, hpins, hnodes, Program.placePins, Program.placePin, hS,
    hlayout, hextend, Program.orFail, Program.compileNodes, Program.compileNode, Program.opOf, bind, Except.bind]
  exact ⟨_, edited_greeting.overflows_eq_false, herrors, rfl⟩

/-- The world, the owner, a referenced value and a null pointer come to where they belong. -/
theorem load_greeter_keeps_convention : ∃ s' q, inviting.act (.load [greeter]) = some s' ∧
    s'.bodies[0]? = some ⟨"S::F", .ready q⟩ ∧ q.arity = 4 ∧
      q.Welcomes s'.workspace.context greeting
        { world := some (.borrowed (.ofName "World") .ref ⟨0, 0, .apart 0⟩)
          this := some (.borrowed (.ofName "S") .ref ⟨1, 0, .apart 1⟩)
          params := [.borrowed (.ofName "S") .ref ⟨2, 0, .apart 2⟩, .null (.ofName "S") .ptr] } := by
  obtain ⟨s', j, heirs, hs', -, -, hsize, hbodies⟩ := exists_load_alone (s := inviting) greeter ⟨rfl, rfl⟩
    filed_inviting (by simp [Shared.catalogue, inviting, Workspace.catalogue, Catalogue.registerEvent,
      Catalogue.contains]) rfl rfl
    fun c h setting hevents hS hvisible _ hlayout =>
      List.forall_mem_singleton.mpr (compile_greeting setting hevents hS hvisible hlayout)
  obtain ⟨q, -, hbody⟩ := hbodies 0 greeting rfl
  have hafter : run (([] : List Change).map .host) s' = some s' := rfl
  obtain ⟨ps, hloads, hall⟩ := load_keeps_convention filed_inviting hs' hafter
  obtain ⟨p, rfl, hscript, hgraph⟩ := hloads.sole (g := greeting) rfl hsize
  obtain ⟨-, hwelcomes⟩ := hall 0 p _ q rfl (hgraph ▸ edited_greeting.structured.filed) hbody
  have htype : (s'.catalogue.info p.handle).id = .ofName "S" := by
    rw [(filed_load filed_inviting hs').info_id (hloads.types p (List.mem_singleton_self p)), hscript]
    rfl
  obtain ⟨⟨world, this, params⟩, ha, hmeets, hwelcome⟩ := hwelcomes
    [.borrowed (.ofName "World") .ref ⟨0, 0, .apart 0⟩, .borrowed (.ofName "S") .ref ⟨1, 0, .apart 1⟩,
      .borrowed (.ofName "S") .ref ⟨2, 0, .apart 2⟩, .null (.ofName "S") .ptr] (by
    rw [Loader.Piece.function, hgraph, htype]
    exact Function.check_eq_ok_iff.mpr
      (.cons (.of_not_null rfl rfl rfl) (.cons (.of_not_null rfl rfl rfl) (.cons (.of_not_null rfl rfl rfl)
        (.cons ⟨rfl, rfl, fun _ => rfl⟩ .nil)))))
  rw [hgraph] at hmeets hwelcome
  obtain ⟨world, rfl⟩ := Option.isSome_iff_exists.mp hmeets.hasWorld
  obtain ⟨this, rfl⟩ := Option.isSome_iff_exists.mp hmeets.hasThis
  cases ha
  exact ⟨s', q, hs', hbody, hwelcome.arity.symm, hwelcome⟩

end Shared

end Flowscript
