import Flowscript.Proofs.Graph.FlowSearch
import Flowscript.Proofs.Graph.ValidGraphs
import Flowscript.Proofs.Run.CountingLoops
import Flowscript.Proofs.Run.SoundInputs

/-! # Where a run comes

Statements go on where flow leads from them, back to a loop that is running, or nowhere; and a loop is running
only if flow came to it. So a run comes only to nodes that flow reaches from the entry, which are those that the
search along flow links finds. What the other statements would put out is never there.
-/
namespace Flowscript

namespace Frame

variable {f : Frame} {marker other : LoopMarker}

theorem mem_loops_of_enterLoop (h : other ∈ (f.enterLoop marker).loops) : other = marker ∨ other ∈ f.loops := by
  unfold enterLoop at h
  split at h
  · exact .inr h
  · exact List.mem_cons.mp h

theorem state_exitLoop (f : Frame) (id : NodeId) (o : PinId) : (f.exitLoop id).state o = f.state o := by
  obtain ⟨loops, heq⟩ := f.exitLoop_eq id
  rw [heq]
  rfl

theorem state_enterLoop (f : Frame) (marker : LoopMarker) (o : PinId) :
    (f.enterLoop marker).state o = f.state o := by
  obtain ⟨loops, heq⟩ := f.enterLoop_eq marker
  rw [heq]
  rfl

theorem state_set_empty {id o : PinId} (h : f.state o = .empty) : (f.set id .empty).state o = .empty := by
  rcases f.state_set_cases id o .empty with hset | ⟨-, hset⟩
  · rw [hset, h]
  · exact hset

end Frame

namespace Program

/-- Flow goes from one node to another: an output of the one leads to a pin of the other. -/
def FlowsTo (p : Program) (a b : NodeId) : Prop :=
  ∃ n, p.node? a = some n ∧ ∃ o ∈ n.flowOut, ∃ q t r, p.pin? o = some q ∧ q.target = some t ∧
    p.pin? t = some r ∧
    r.node = b

def Reaches (p : Program) (id : NodeId) : Prop := Relation.ReflTransGen p.FlowsTo p.entry id

def Unreached (p : Program) (o : PinId) : Prop :=
  ∃ id n, p.node? id = some n ∧ n.pure = false ∧ o ∈ n.dataOut ∧ ¬ p.Reaches id

/-- If execution goes on at a pin, flow reaches its node. -/
def Ahead (p : Program) (next : Option PinId) : Prop :=
  ∀ t r, next = some t → p.pin? t = some r → p.Reaches r.node

def Finds (p : Program) : Run.Arrival → Prop
  | .through id => p.Ahead (some id)
  | .again marker => p.Reaches marker.node

/-- Flow reaches the loops that are running, and outputs of statements that it does not reach are empty. -/
structure Keeps (p : Program) (f : Frame) : Prop where
  loops : ∀ marker ∈ f.loops, p.Reaches marker.node
  idle : ∀ o, p.Unreached o → f.state o = .empty

variable {p : Program} {f : Frame}

theorem Keeps.spares {o : PinId} (ho : ¬ p.Unreached o) : Frame.Spares p.Keeps o := fun f state hf =>
  ⟨by rw [Frame.loops_set]; exact hf.loops, fun other hother => by
    have hne : other ≠ o := fun he => ho (he ▸ hother)
    rw [Frame.state_set_of_ne hne]
    exact hf.idle other hother⟩

theorem Keeps.empty (id : PinId) (f : Frame) (hf : p.Keeps f) : p.Keeps (f.set id .empty) :=
  ⟨by rw [Frame.loops_set]; exact hf.loops, fun o ho => Frame.state_set_empty (hf.idle o ho)⟩

theorem Keeps.exitLoop (hf : p.Keeps f) (id : NodeId) : p.Keeps (f.exitLoop id) :=
  ⟨fun marker hmarker => hf.loops marker ((Frame.suffix_exitLoop _ id).mem hmarker), fun o ho => by
    rw [Frame.state_exitLoop]
    exact hf.idle o ho⟩

theorem Keeps.enterLoop (hf : p.Keeps f) {marker : LoopMarker} (hmarker : p.Reaches marker.node) :
    p.Keeps (f.enterLoop marker) := by
  refine ⟨fun other hother => ?_, fun o ho => ?_⟩
  · rcases Frame.mem_loops_of_enterLoop hother with rfl | hother
    · exact hmarker
    · exact hf.loops other hother
  · rw [Frame.state_enterLoop]
    exact hf.idle o ho

section Arranged

variable (ha : p.Arranged) {id : NodeId} {n : ProgramNode} (hn : p.node? id = some n)
include ha hn

theorem Arranged.spares_output (hid : p.Reaches id) {o : PinId} (ho : o ∈ n.dataOut) : Frame.Spares p.Keeps o := by
  refine Keeps.spares ?_
  rintro ⟨id', n', hn', -, ho', hid'⟩
  by_cases he : id = id'
  · exact hid' (he ▸ hid)
  · exact ha.apart hn hn' he o ho ho'

theorem Arranged.spares_input {i : PinId} (hi : i ∈ n.dataIn) : Frame.Spares p.Keeps i := by
  refine Keeps.spares ?_
  rintro ⟨id', n', hn', -, ho', -⟩
  exact ha.input id n hn i hi id' n' hn' ho'

omit hn in
theorem Arranged.tolerates : Frame.Tolerates p.Keeps p := by
  refine ⟨fun id n hn i hi => ha.spares_input hn hi, fun id n hn hpure o ho => Keeps.spares ?_⟩
  rintro ⟨id', n', hn', himpure, ho', -⟩
  by_cases he : id = id'
  · subst he
    cases hn.symm.trans hn'
    exact Bool.noConfusion (hpure.symm.trans himpure)
  · exact ha.apart hn hn' he o ho ho'

end Arranged

end Program

namespace Run

open Program

variable {α : Type} {c : Catalogue} {sc : Scope} (invoke : Invoke)

section Statement

variable (hp : sc.program.WellFormed c) (ha : sc.program.Arranged)

theorem ahead_target {id : NodeId} {n : ProgramNode} (hn : sc.program.node? id = some n)
    (hid : sc.program.Reaches id) {o : PinId} (ho : o ∈ n.flowOut) {I : Activation → Prop} :
    Maintains I sc (target o) sc.program.Ahead := by
  refine .look_pin fun q hq => .pure fun t r ht hr => ?_
  exact hid.tail ⟨n, hn, o, ho, q, t, r, hq, ht, hr, rfl⟩

include hp ha in
theorem steers_of_reaches {id : NodeId} {n : ProgramNode} (hn : sc.program.node? id = some n)
    (hid : sc.program.Reaches id) (op : Op) : Steers sc.program.Keeps sc.program.Ahead sc n op where
  tolerates := ha.tolerates
  inputs _ hi := ha.spares_input hn hi
  admits := .of_spares (fun _ ho => ha.spares_output hn hid ho)
    (fun _ marker hmarker hf => hf.enterLoop (by rwa [hmarker, hp.node_id id n hn])) op
  exit _ hf := hf.exitLoop n.id
  leads _ ho := ahead_target hn hid ho

/-- Wherever execution comes from a place that flow reaches, flow reaches it. -/
theorem finds_of_arrival? {p : Program} {next : Option PinId} {f : Frame} {arrival : Arrival} (hf : p.Keeps f)
    (hnext : p.Ahead next) (h : arrival? next f = some arrival) : p.Finds arrival := by
  unfold arrival? at h
  cases next with
  | some id =>
    cases h
    exact hnext
  | none =>
    obtain ⟨marker, hmarker, rfl⟩ := Option.map_eq_some_iff.mp h
    exact hf.loops marker (List.mem_of_mem_head? hmarker)

include hp ha in
/-- Statements that flow reaches lead only to such ones. -/
theorem conserves_keeps : Conserves sc.program.Keeps sc.program.Keeps sc.program.Ahead sc where
  keep _ hf := hf
  empty := Keeps.empty
  count _ hf := ⟨hf.loops, hf.idle⟩
  steers f next arrival hf hnext harrival n op htreats := by
    have hfinds := finds_of_arrival? hf hnext harrival
    cases arrival with
    | again marker => exact steers_of_reaches hp ha htreats.1 hfinds op
    | through t =>
      obtain ⟨r, hr, hn, -⟩ := htreats
      exact steers_of_reaches hp ha hn (hfinds t r rfl hr) op
  tolerates := ha.tolerates
  arguments _ hentry _ ho := ha.spares_output hentry .refl ho
  begins entry hentry := by
    intro t q ht hq
    obtain ⟨o, ho, htarget⟩ := Option.bind_eq_some_iff.mp ht
    obtain ⟨q', hq', htarget⟩ := Option.bind_eq_some_iff.mp htarget
    exact .single ⟨entry, hentry, o, List.mem_of_getElem? ho, q', t, q, hq', htarget, hq, rfl⟩

end Statement

end Run

namespace Graph

def statements (g : Graph) : List NodeId := g.reachable (g.entries.map (·.id))

/-- A data output of a statement that is not among those that may run. -/
def Idle (g : Graph) (o : PinId) : Prop :=
  ∃ q, g.pin? o = some q ∧ q.direction = .output ∧ q.isFlow = false ∧ g.isPure q.node = false ∧
    q.node ∉ g.statements

/-- Idle outputs have nothing in a frame. -/
def Unfilled (g : Graph) (f : Frame) : Prop := ∀ o, g.Idle o → f.state o = .empty

end Graph

namespace Program

open Flowscript.Graph

variable {g : Graph} {c : Catalogue} {s : Setting} {p : Program}

/-- The one entry of a graph is where its program begins, so the search finds what flow reaches from there. -/
theorem mem_statements_iff (hg : g.Edited) (h : compile g c s = .ok p) {id : NodeId} :
    id ∈ g.statements ↔ Relation.ReflTransGen g.FlowsTo p.entry id := by
  obtain ⟨hfindings, ha⟩ := assembled_of_compile hg.consistent h
  obtain ⟨-, -, -, -, hstructure⟩ := findings_eq_nil_iff.mp hfindings
  obtain ⟨entry, hentries⟩ := List.length_eq_one_iff.mp (checkStructure_eq_nil_iff.mp hstructure).1
  obtain ⟨n, hn, hentry⟩ := ha.entry
  rw [hentries] at hn
  cases List.mem_singleton.mp hn
  rw [Graph.statements, hentries, mem_reachable_iff, hentry]
  simp

theorem flowsTo_of_compile (hg : g.Edited) (h : compile g c s = .ok p) {a b : NodeId} (hflow : p.FlowsTo a b) :
    g.FlowsTo a b := by
  have hc := hg.consistent
  obtain ⟨-, ha⟩ := assembled_of_compile hc h
  obtain ⟨n, hn, o, ho, q, t, r, hq, ht, hr, rfl⟩ := hflow
  obtain ⟨node, hnode, rfl, -, hcompile⟩ := exists_compiled hc h hn
  obtain ⟨op, -, rfl⟩ := compileNode_eq hcompile
  obtain ⟨output, hmem, rfl⟩ := List.mem_map.mp ho
  obtain ⟨hown, hdirection, hisFlow⟩ := mem_pinsToward_iff.mp hmem
  obtain ⟨-, -, -, hlinked⟩ := ha.pin_of output.id q hq
  obtain ⟨l, hl, hout, rfl, -⟩ := hlinked.target t ht
  obtain ⟨input, hinput, hstands, -⟩ := ha.pin_of l.input r hr
  exact ⟨output, hown, hisFlow, hdirection, l, hl, PinId.ext hout, input, hinput, hstands.node.symm⟩

theorem mem_statements_of_reaches (hg : g.Edited) (h : compile g c s = .ok p) {id : NodeId} (hid : p.Reaches id) :
    id ∈ g.statements :=
  (mem_statements_iff hg h).mpr (Relation.ReflTransGen.mono (fun _ _ hflow => flowsTo_of_compile hg h hflow) _ _ hid)

theorem Keeps.unfilled (hg : g.Edited) (h : compile g c s = .ok p) {f : Frame} (hf : p.Keeps f) : g.Unfilled f := by
  rintro o ⟨q, hq, hdirection, hflow, hpure, hidle⟩
  have hc := hg.consistent
  obtain ⟨hfindings, ha⟩ := assembled_of_compile hc h
  obtain ⟨node, hnode, -⟩ := hc.pin_node o q hq
  obtain ⟨n, hn⟩ := ha.node_exists q.node node hnode
  obtain ⟨node', hnode', hcompile⟩ := ha.node_of q.node n hn
  cases hnode.symm.trans hnode'
  obtain ⟨op, -, rfl⟩ := compileNode_eq hcompile
  have hid : node.id = q.node := hc.node_id q.node node hnode
  refine hf.idle o ⟨q.node, _, hn, ?_, ?_, fun hreaches => hidle (mem_statements_of_reaches hg h hreaches)⟩
  · rw [← hpure, ← hid]
  · have hmem : q ∈ g.pinsToward q.node .output false :=
      mem_pinsToward_iff.mpr ⟨mem_nodePins_of_pin? hg.numbered hc hq, hdirection, hflow⟩
    rw [← hid] at hmem
    rw [← hc.pin_id o q hq]
    exact List.mem_map_of_mem hmem

end Program

namespace Course

open Run Program

/-- A call of a function with statements comes to run them: it took a frame and bound its arguments, and goes on
where flow leads from the entry. -/
structure Opens (r : Course) (args : List Value) (frame : Frame) (machine : Machine) (m : Moment) : Prop where
  impure : r.scope.program.pure = false
  fresh : ∃ before, r.scope.program.takeFrame r.scope.seat r.scope.context before = .ok frame machine
  bound : ∃ entry, r.scope.program.node? r.scope.program.entry = some entry ∧
    bindArguments 0 entry.dataOut (args.drop r.scope.program.implicitArgs) r.scope ⟨frame, machine⟩ =
      .ok () m.act ∧
    m.next = r.scope.program.follow entry 0

/-- Flow reaches where a call goes on, and the loops that are running. -/
structure OnFlow (r : Course) (m : Moment) : Prop where
  next : r.scope.program.Ahead m.next
  frame : r.scope.program.Keeps m.act.frame

variable {r : Course} {c : Catalogue} {args : List Value} {frame : Frame} {machine : Machine} {m m' : Moment}

/-- In a new frame no loop is running and nothing is put out. -/
theorem keeps_of_takeFrame {p : Program} {seat : Seat} {w : Context} {before : Machine}
    (h : p.takeFrame seat w before = .ok frame machine) : p.Keeps frame := by
  obtain ⟨-, -, hempty, -⟩ := takeFrame_fresh.ok h
  have hloops := takeFrame_loops.ok h
  refine ⟨fun marker hmarker => ?_, fun o _ => hempty o⟩
  rw [hloops] at hmarker
  cases hmarker

theorem Opens.conserved {J D : Frame → Prop} {R : Option PinId → Prop} (h : r.Opens args frame machine m)
    (hc : Conserves J D R r.scope) (hframe : J frame) : R m.next ∧ J m.act.frame := by
  obtain ⟨entry, hentry, hbind, hnext⟩ := h.bound
  have hlasts : Lasts J r.scope (bindArguments 0 entry.dataOut (args.drop r.scope.program.implicitArgs)) :=
    lasts_bindArguments (hc.arguments entry hentry) 0 _
  exact ⟨hnext ▸ hc.begins entry hentry, ((hlasts ⟨frame, machine⟩ hframe).ok hbind).1⟩

theorem Opens.onFlow (hp : r.scope.program.WellFormed c) (ha : r.scope.program.Arranged)
    (h : r.Opens args frame machine m) : r.OnFlow m := by
  obtain ⟨before, htake⟩ := h.fresh
  obtain ⟨hnext, hframe⟩ := h.conserved (conserves_keeps hp ha) (keeps_of_takeFrame htake)
  exact ⟨hnext, hframe⟩

theorem OnFlow.reaches (h : r.OnFlow m) {id : NodeId} (hid : r.node? m = some id) : r.scope.program.Reaches id := by
  unfold node? at hid
  split at hid
  · next t harrival =>
    obtain ⟨q, hq, rfl⟩ := Option.map_eq_some_iff.mp hid
    exact finds_of_arrival? h.frame h.next harrival t q rfl hq
  · next marker harrival =>
    cases hid
    exact finds_of_arrival? h.frame h.next harrival
  · cases hid

section Steps

variable (hp : r.scope.program.WellFormed c) (ha : r.scope.program.Arranged)
include hp ha

/-- Statements that flow does not reach put out nothing, however the next statement ends. -/
theorem OnFlow.keeps (h : r.OnFlow m) {res : EStateM.Result ScriptError Activation Outcome}
    (hres : r.outcome? m = some res) :
    (∀ outcome a, res = .ok outcome a → r.scope.program.Keeps a.frame) ∧
      ∀ e a, res = .error e a → r.scope.program.Keeps a.frame := by
  obtain ⟨hok, herror⟩ := (conserves_keeps hp ha).outcome h.next h.frame hres
  refine ⟨fun outcome a he => ?_, herror⟩
  have hleaves := hok outcome a he
  cases outcome with
  | next pin => exact hleaves.2
  | done result => exact hleaves

theorem OnFlow.runs (h : r.OnFlow m) {ms : List Moment} (hruns : r.Runs m ms m') : r.OnFlow m' := by
  obtain ⟨hnext, hframe⟩ := (conserves_keeps hp ha).runs h.next h.frame hruns
  exact ⟨hnext, hframe⟩

omit ha in
theorem Opens.body_eq (h : r.Opens args frame machine m) :
    body r.invoke args r.ret r.scope ⟨frame, machine⟩ =
      statements r.invoke r.ret patience m.next r.scope m.act := by
  obtain ⟨entry, hentry, hbind, hnext⟩ := h.bound
  have hprogram : (program : Run Program) r.scope ⟨frame, machine⟩ = .ok r.scope.program ⟨frame, machine⟩ := rfl
  rw [body, bind_of_ok hprogram, bind_of_ok (node_of_node? hentry _), bind_of_ok hbind, h.impure, hnext]
  rw [if_neg Bool.false_ne_true]
  cases hout : entry.flowOut with
  | nil =>
    rw [Program.follow, hout]
    rfl
  | cons o rest =>
    obtain ⟨q, hq⟩ := Option.isSome_iff_exists.mp (hp.flow _ entry hentry o (hout ▸ List.mem_cons_self))
    rw [Program.follow, hout, List.getElem?_cons_zero, Option.bind_some, hq, Option.bind_some]
    exact bind_of_ok (target_of_pin? hq m.act)

end Steps

/-- Every statement that runs is one that flow reaches from the entry, and what the others would put out is never
there: not before a statement, not after it, and not when the body ends. -/
theorem visits_reachable {g : Graph} {s : Setting} {p : Program} (hg : g.Edited) (h : compile g c s = .ok p) :
    (∀ id, id ∈ g.statements ↔ Relation.ReflTransGen g.FlowsTo p.entry id) ∧
    ∀ r : Course, r.scope.program = p → ∀ args frame machine,
      (∀ m, r.Opens args frame machine m →
        body r.invoke args r.ret r.scope ⟨frame, machine⟩ =
          Run.statements r.invoke r.ret patience m.next r.scope m.act ∧
        ∀ ms v, r.Runs m ms v → (∀ id, r.node? v = some id → id ∈ g.statements) ∧ g.Unfilled v.act.frame ∧
          ∀ res, r.outcome? v = some res →
            (∀ outcome a, res = .ok outcome a → g.Unfilled a.frame) ∧
              ∀ e a, res = .error e a → g.Unfilled a.frame) ∧
      ∀ before, p.takeFrame r.scope.seat r.scope.context before = .ok frame machine →
        Ensures (body r.invoke args r.ret) r.scope ⟨frame, machine⟩ (fun _ a => g.Unfilled a.frame)
          fun _ a => g.Unfilled a.frame := by
  have hformed := wellFormed_of_compile hg h
  have harranged := arranged_of_compile hg h
  refine ⟨fun id => mem_statements_iff hg h, ?_⟩
  rintro r rfl args frame machine
  refine ⟨fun m hopens => ⟨hopens.body_eq hformed, fun ms v hruns => ?_⟩, fun before htake => ?_⟩
  · have hv : r.OnFlow v := (hopens.onFlow hformed harranged).runs hformed harranged hruns
    refine ⟨fun id hid => mem_statements_of_reaches hg h (hv.reaches hid), hv.frame.unfilled hg h,
      fun res hres => ?_⟩
    obtain ⟨hok, herror⟩ := hv.keeps hformed harranged hres
    exact ⟨fun outcome a he => (hok outcome a he).unfilled hg h, fun e a he => (herror e a he).unfilled hg h⟩
  · refine ((conserves_keeps hformed harranged).body r.invoke args r.ret ⟨frame, machine⟩
      (keeps_of_takeFrame htake)).mono (fun _ a ha => ha.unfilled hg h) fun _ a ha => ha.unfilled hg h

end Course

namespace Program

/-- Edits that add two loops, the second of which nothing leads to. -/
def idlingEdits : List EditOp := [.addNode .entry, .addNode .forLoop, .addNode .forLoop, .addLink ⟨1⟩ ⟨2⟩,
  .setDefault ⟨4⟩ (some (.num (.int 0))), .setDefault ⟨5⟩ (some (.num (.int 1))),
  .setDefault ⟨11⟩ (some (.num (.int 1))), .setDefault ⟨12⟩ (some (.num (.int 3)))]

def idling : Graph := idlingEdits.foldl (fun g op => op.apply numbers g) { name := "Idle" }

theorem edited_idling : idling.Edited := by
  refine .foldl_apply numbers idlingEdits (.new "Idle" {}) ?_
  unfold Graph.Numbered
  decide

def idlingProgram : Program where
  name := "Idle"
  script := none
  nodes := #[some { id := ⟨1⟩, label := "Entry", op := .entry, pure := false, flowOut := [⟨1⟩] },
    some (countingNode 2 2), some (countingNode 3 9)]
  pins := (some { node := ⟨1⟩, type := none, form := .value, default := none, target := some ⟨2⟩,
                  storage := 0 } ::
    (countingPins 2 0 0 1 none none ++ countingPins 3 12 1 3 none none)).toArray
  entry := ⟨1⟩
  returnNode := none
  result := none
  pure := false
  params := 0
  hasWorld := false
  thisType := none
  storage := ⟨24, 4⟩

set_option maxRecDepth 20000 in
theorem livePins_idling : idling.livePins =
    ⟨⟨1⟩, ⟨1⟩, .output, "Then", .flow, none⟩ :: (loopPins 2 2 0 1 ++ loopPins 3 9 1 3) := rfl

theorem liveNodes_idling : idling.liveNodes =
    [{ id := ⟨1⟩, kind := .entry, firstPin := ⟨1⟩, pinCount := 1 },
      { id := ⟨2⟩, kind := .forLoop, firstPin := ⟨2⟩, pinCount := 7 },
      { id := ⟨3⟩, kind := .forLoop, firstPin := ⟨9⟩, pinCount := 7 }] := by
  decide +kernel

set_option maxRecDepth 20000 in
theorem findings_idling : idling.findings numbers = [] := by
  have hnode : ∀ n ∈ idling.liveNodes, idling.checkNode numbers n = [] := by
    rw [liveNodes_idling]
    simp only [List.forall_mem_cons]
    exact ⟨rfl, checkNode_of_loopPins 2 2 0 1 rfl rfl, checkNode_of_loopPins 3 9 1 3 rfl rfl, List.forall_mem_nil _⟩
  rw [Graph.findings, List.flatMap_eq_nil_iff.mpr hnode]
  rfl

set_option maxRecDepth 20000 in
theorem compile_idling : compile idling numbers {} = .ok idlingProgram := by
  have herrors : idling.errors numbers none = [] := by
    rw [Graph.errors, findings_idling]
    rfl
  refine compile_eq_ok_iff.mpr ⟨edited_idling.overflows_eq_false, herrors, ?_⟩
  simp only [assemble, livePins_idling, liveNodes_idling, loopPins, List.cons_append, List.nil_append,
    placePins, placePin, handleNamed?_numbers, compileNodes, compileNode, opOf, bind, Except.bind]
  rfl

theorem idle_idling : idling.Idle ⟨15⟩ :=
  ⟨⟨⟨15⟩, ⟨3⟩, .output, "Index", .data "i32" .value, none⟩, rfl, rfl, rfl, rfl, by decide +kernel⟩

end Program

namespace Course

open Program

def idling : Course where
  invoke _ _ _ := throw .tooDeep
  ret := none
  scope := Program.idlingProgram.scope .own [] { catalogue := Program.numbers }

/-- The frame of a call of the program, before it runs. -/
def idleFrame : Frame := { slots := Array.replicate 15 {}, firstBlock := 0, base := 360, mark := 0 }

def idleMachine : Machine :=
  let own := Interpreter.new { maxSteps := 0xffffffff }
  { memory := { next := 15 }, own := { own with stack := { own.stack with used := 384, highWater := 384 } } }

theorem idling_visits_reachable :
    Graph.Edited Program.idling ∧ compile Program.idling numbers {} = .ok idling.scope.program ∧
      Program.idling.Idle ⟨15⟩ ∧
      ∃ m v, idling.Opens [] idleFrame idleMachine m ∧ idling.Runs m [m] v ∧ idling.node? m = some ⟨2⟩ ∧
        ⟨2⟩ ∈ Program.idling.statements ∧ v.act.frame.state ⟨15⟩ = .empty := by
  have hformed := wellFormed_of_compile edited_idling compile_idling
  have hplain : idling.Plain (countingNode 2 2) 0 1 := plain_of_defaults rfl rfl rfl rfl (by decide) (by decide)
  have hin := ownInputs_of_compile edited_idling compile_idling hplain.node
  have hopens : idling.Opens [] idleFrame idleMachine ((countingNode 2 2).entering ⟨idleFrame, idleMachine⟩) :=
    ⟨rfl, ⟨{ own := .new { maxSteps := 0xffffffff } }, rfl⟩, _, rfl, rfl, rfl⟩
  have hnone : ∀ m ∈ idleFrame.loops, m.node ≠ (countingNode 2 2).id := fun m hm => absurd hm List.not_mem_nil
  have hfit : idling.Fit ⟨idleFrame, idleMachine⟩ := ⟨Nat.le_refl _, rfl⟩
  obtain ⟨hat, -, v, hstep, -⟩ := hplain.enters (fun _ _ _ => .throw _) hformed hin hfit rfl hnone
  obtain ⟨-, hruns⟩ := ((visits_reachable edited_idling compile_idling).2 idling rfl [] _ _).1 _ hopens
  exact ⟨edited_idling, compile_idling, idle_idling, _, v, hopens, .one hstep, hat,
    (hruns [] _ (.refl _)).1 _ hat, (hruns _ v (.one hstep)).2.1 _ idle_idling⟩

end Course

end Flowscript
