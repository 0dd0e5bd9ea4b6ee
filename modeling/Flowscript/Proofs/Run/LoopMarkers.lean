import Mathlib.Data.List.Chain
import Flowscript.Proofs.Run.AuditedStatements
import Flowscript.Proofs.Run.VisitedNodes

/-! # The markers of running loops

A loop is marked as running when flow enters it, unless it is the innermost one already, and only leaving a loop
takes markers away, with those of the loops inside. The index of a counting loop is written before the loop is
marked, and until the call is over nothing sets its slot but further visits of the loop. So every marker stands for
a loop of its kind, neighbours stand for different ones, and a visit finds the index that it counts up and compares.
-/
namespace Flowscript

def LoopMarker.kind : LoopMarker → NodeKind
  | .forLoop _ => .forLoop
  | .whileLoop _ => .whileLoop

/-- Neighbouring markers stand for different nodes. -/
def LoopMarker.Separated (loops : List LoopMarker) : Prop := loops.IsChain fun inner outer => inner.node ≠ outer.node

namespace Frame

theorem separated_exitLoop {f : Frame} (h : LoopMarker.Separated f.loops) (id : NodeId) :
    LoopMarker.Separated (f.exitLoop id).loops := List.IsChain.suffix h (f.suffix_exitLoop id)

theorem separated_enterLoop {f : Frame} (h : LoopMarker.Separated f.loops) (marker : LoopMarker) :
    LoopMarker.Separated (f.enterLoop marker).loops := by
  unfold enterLoop
  split
  · exact h
  · next hinnermost =>
    refine List.isChain_cons.mpr ⟨fun outer houter hsame => hinnermost ?_, h⟩
    rw [Option.mem_def.mp houter, Option.map_some, hsame]

end Frame

namespace Program

def IsIndex (p : Program) (o : PinId) : Prop :=
  ∃ id n, p.node? id = some n ∧ n.op = .forLoop ∧ n.dataOut[0]? = some o

/-- The loops that a frame says are running are loops of the program, and the indices of the counting loops among
them are there. -/
structure Marks (p : Program) (f : Frame) : Prop where
  size : f.slots.size = p.pins.size
  loops : f.LoopsIn p
  separated : LoopMarker.Separated f.loops
  index : ∀ id n, .forLoop id ∈ f.loops → p.node? id = some n →
    ∀ o, n.dataOut[0]? = some o → f.state o = .owned

/-- The frame of a call that is over: its result may have been moved out of a slot. -/
def Spent (p : Program) (f : Frame) : Prop := ∃ g, p.Marks g ∧ (f = g ∨ ∃ id, f = g.set id .empty)

variable {p : Program} {c : Catalogue} {f : Frame} {o : PinId}

namespace Marks

theorem isIndex (hf : p.Marks f) {id : NodeId} {n : ProgramNode} (hmarker : .forLoop id ∈ f.loops)
    (hn : p.node? id = some n) (ho : n.dataOut[0]? = some o) : p.IsIndex o := by
  obtain ⟨n', hn', hop⟩ := hf.loops _ hmarker
  cases hn.symm.trans hn'
  exact ⟨id, n, hn, hop, ho⟩

theorem mem_ids (hf : p.Marks f) (ho : p.IsData o) : o ∈ f.ids := by
  obtain ⟨q, -, hq, -⟩ := ho
  exact Frame.mem_ids_of_pin? hf.size hq

/-- Setting slots keeps the markers in order, if the indices stay. -/
theorem of_loops_eq {g : Frame} (hf : p.Marks f) (hsize : g.slots.size = f.slots.size) (hloops : g.loops = f.loops)
    (hindex : ∀ o, p.IsIndex o → f.state o = .owned → g.state o = .owned) : p.Marks g where
  size := hsize.trans hf.size
  loops := by
    unfold Frame.LoopsIn
    rw [hloops]
    exact hf.loops
  separated := hloops ▸ hf.separated
  index id n hmarker hn o ho := by
    rw [hloops] at hmarker
    exact hindex o (hf.isIndex hmarker hn ho) (hf.index id n hmarker hn o ho)

theorem spares (ho : ¬ p.IsIndex o) : Frame.Spares p.Marks o := fun f state hf => by
  refine hf.of_loops_eq (Frame.size_slots_set ..) (Frame.loops_set ..) fun other hother howned => ?_
  have hne : other ≠ o := fun he => ho (he ▸ hother)
  rwa [Frame.state_set_of_ne hne]

theorem refill (hf : p.Marks f) (ho : p.IsData o) :
    p.Marks ((f.set o .empty).set o .owned) ∧ ((f.set o .empty).set o .owned).state o = .owned := by
  have hself : ((f.set o .empty).set o .owned).state o = .owned := by
    refine Frame.state_set_self ?_
    rw [Frame.ids_set]
    exact hf.mem_ids ho
  refine ⟨hf.of_loops_eq ?_ ?_ fun other _ howned => ?_, hself⟩
  · rw [Frame.size_slots_set, Frame.size_slots_set]
  · rw [Frame.loops_set, Frame.loops_set]
  · by_cases hne : other = o
    · rw [hne]
      exact hself
    · rwa [Frame.state_set_of_ne hne, Frame.state_set_of_ne hne]

theorem exitLoop (hf : p.Marks f) (id : NodeId) : p.Marks (f.exitLoop id) := by
  refine ⟨?_, hf.loops.exitLoop id, Frame.separated_exitLoop hf.separated id, fun id' n hmarker hn o ho => ?_⟩
  · obtain ⟨loops, heq⟩ := f.exitLoop_eq id
    rw [heq]
    exact hf.size
  · rw [Frame.state_exitLoop]
    exact hf.index id' n ((f.suffix_exitLoop id).mem hmarker) hn o ho

theorem enterLoop (hf : p.Marks f) {marker : LoopMarker} {n : ProgramNode} (hn : p.node? marker.node = some n)
    (hop : n.op = marker.op) (hindex : n.op = .forLoop → ∀ o, n.dataOut[0]? = some o → f.state o = .owned) :
    p.Marks (f.enterLoop marker) := by
  refine ⟨?_, hf.loops.enterLoop hn hop, Frame.separated_enterLoop hf.separated marker, ?_⟩
  · obtain ⟨loops, heq⟩ := f.enterLoop_eq marker
    rw [heq]
    exact hf.size
  · intro id n' hmarker hn' o ho
    rw [Frame.state_enterLoop]
    rcases Frame.mem_loops_of_enterLoop hmarker with rfl | hmarker
    · cases hn.symm.trans hn'
      exact hindex hop o ho
    · exact hf.index id n' hmarker hn' o ho

theorem of_takeFrame {seat : Seat} {w : Context} {before machine : Machine}
    (h : p.takeFrame seat w before = .ok f machine) : p.Marks f := by
  have hloops := takeFrame_loops.ok h
  refine ⟨((takeFrame_starts []).ok h).size_eq, fun marker hmarker => ?_, ?_, fun id n hmarker => ?_⟩
  · rw [hloops] at hmarker
    cases hmarker
  · rw [hloops]
    exact List.isChain_nil
  · rw [hloops] at hmarker
    cases hmarker

end Marks

section Arranged

variable (hp : p.WellFormed c) (ha : p.Arranged) {id : NodeId} {n : ProgramNode} (hn : p.node? id = some n)
include ha hn

theorem Arranged.not_isIndex_input {i : PinId} (hi : i ∈ n.dataIn) : ¬ p.IsIndex i := by
  rintro ⟨id', n', hn', -, hout⟩
  exact ha.input id n hn i hi id' n' hn' (List.mem_of_getElem? hout)

theorem Arranged.not_isIndex_output (hop : n.op ≠ .forLoop) (ho : o ∈ n.dataOut) : ¬ p.IsIndex o := by
  rintro ⟨id', n', hn', hop', hout⟩
  by_cases he : id = id'
  · subst he
    cases hn.symm.trans hn'
    exact hop hop'
  · exact ha.apart hn hn' he o ho (List.mem_of_getElem? hout)

omit hn in
include hp in
/-- Pulling sets no index: a counting loop is no expression. -/
theorem Arranged.tolerates_of_spares {J : Frame → Prop} (hJ : ∀ o, ¬ p.IsIndex o → Frame.Spares J o) :
    Frame.Tolerates J p where
  inputs _ _ hn i hi := hJ i (ha.not_isIndex_input hn hi)
  outputs id n hn hpure o ho := by
    refine hJ o (ha.not_isIndex_output hn (fun hop => ?_) ho)
    have hsuits := hp.suits id n hn
    rw [Suits, hop] at hsuits
    exact Bool.noConfusion (hpure.symm.trans hsuits.1)

omit hn in
include hp in
theorem Marks.tolerates : Frame.Tolerates p.Marks p := ha.tolerates_of_spares hp fun _ ho => Marks.spares ho

end Arranged

end Program

namespace Run

open Program

theorem mem_loops_of_arrival? {next : Option PinId} {f : Frame} {marker : LoopMarker}
    (h : arrival? next f = some (.again marker)) : marker ∈ f.loops := by
  unfold arrival? at h
  split at h
  · cases h
  · obtain ⟨innermost, hmem, he⟩ := Option.map_eq_some_iff.mp h
    cases he
    exact List.mem_of_mem_head? hmem

theorem marks_writeInt {sc : Scope} {a : Activation} {index : PinId} (hdata : sc.program.IsData index)
    (hf : sc.program.Marks a.frame) (k : Int) :
    Ensures (writeInt index k) sc a (fun _ b => sc.program.Marks b.frame ∧ b.frame.state index = .owned)
      fun _ _ => False := by
  obtain ⟨place, hplace⟩ := hdata.exists_storage? a.frame
  refine (writeInt_ensures index k a).mono (fun _ b hb => ?_) fun _ _ h => h
  rw [(hb.1 place hplace).1]
  exact hf.refill hdata

section Marks

variable {sc : Scope} {c : Catalogue} (hp : sc.program.WellFormed c) (ha : sc.program.Arranged)
include hp ha

theorem admits_marks {id : NodeId} {n : ProgramNode} (hn : sc.program.node? id = some n) :
    Admits sc.program.Marks sc n n.op := by
  obtain rfl : n.id = id := hp.node_id id n hn
  have hout : n.op ≠ .forLoop → ∀ o ∈ n.dataOut, Frame.Spares sc.program.Marks o := fun hop o ho =>
    Marks.spares (ha.not_isIndex_output hn hop ho)
  cases hop : n.op with
  | forLoop =>
    intro index hindex k
    have hdata : sc.program.IsData index := hp.data n.id n hn index (.inr (List.mem_of_getElem? hindex))
    refine ⟨fun a hf => ?_, fun a hf => ?_⟩
    · exact (marks_writeInt hdata hf k).mono (fun _ _ hb => ⟨hb.1, trivial⟩) fun _ _ hb => hb.elim
    · refine ((marks_writeInt hdata hf k).mono (fun _ _ hb => hb) fun _ _ hb => hb.elim).bind fun _ b hb => ?_
      refine ⟨hb.1.enterLoop hn hop fun _ o ho => ?_, trivial⟩
      rw [hindex] at ho
      cases ho
      exact hb.2
  | whileLoop => exact fun f hf => hf.enterLoop hn hop fun hfor => by rw [hop] at hfor; cases hfor
  | _ => exact hout (by rw [hop]; exact nofun)

theorem conserves_marks : Conserves sc.program.Marks sc.program.Spent (fun _ => True) sc where
  keep f hf := ⟨f, hf, .inl rfl⟩
  empty id f hf := ⟨f, hf, .inr ⟨id, rfl⟩⟩
  count _ hf := hf.of_loops_eq rfl rfl fun _ _ howned => howned
  steers f next arrival hf _ harrival n op htreats := by
    -- A loop that is visited again is one of the program, so that its node does what the marker says.
    obtain ⟨id, hn, rfl⟩ : ∃ id, sc.program.node? id = some n ∧ op = n.op := by
      cases arrival with
      | through t =>
        obtain ⟨r, -, hn, hop⟩ := htreats
        exact ⟨r.node, hn, hop⟩
      | again marker =>
        obtain ⟨hn, hop⟩ := htreats
        obtain ⟨n', hn', hop'⟩ := hf.loops marker (mem_loops_of_arrival? harrival)
        cases hn.symm.trans hn'
        exact ⟨marker.node, hn, hop.trans hop'.symm⟩
    exact {
      tolerates := Marks.tolerates hp ha
      inputs := fun i hi => Marks.spares (ha.not_isIndex_input hn hi)
      admits := admits_marks hp ha hn
      exit := fun f hf => hf.exitLoop n.id
      leads := fun o _ => .look_pin fun q _ => .pure trivial }
  tolerates := Marks.tolerates hp ha
  arguments entry hentry o ho := by
    refine Marks.spares (ha.not_isIndex_output hentry ?_ ho)
    rw [ha.entry entry hentry]
    exact nofun
  begins _ _ := trivial

end Marks

/-- The integer that a pin holds, or what a computation comes up with where there is none. -/
def readIntOr (fallback : Run Int) (id : PinId) : Run Int := do
  match (← frame).value? (← program) id with
  | some place =>
    match (← memory).read place (.int .i32) with
    | .int n => return n
    | _ => fallback
  | none => fallback

/-- A visit of a counting loop in which a computation comes up with the index where there is none. -/
def visitForOr (invoke : Invoke) (fallback : Run Int) (n : ProgramNode) (via : Option PinId) :
    Run (Option PinId) := do
  let break' ← nth n.flowIn 1
  let index ← nth n.dataOut 0
  let body ← nth n.flowOut 0
  let completed ← nth n.flowOut 1
  if via = some break' then complete n completed
  else
    match via with
    | some _ =>
      let start ← pullInt invoke (← nth n.dataIn 0)
      writeInt index start
      modifyFrame (·.enterLoop (.forLoop n.id))
    | none =>
      let current ← readIntOr fallback index
      writeInt index (min (current + 1) 0x7fffffff)
    let stop ← pullInt invoke (← nth n.dataIn 1)
    if (← readIntOr fallback index) ≥ stop then complete n completed else target body

theorem visitForOr_zero (invoke : Invoke) : visitForOr invoke (pure 0) = visitFor invoke := rfl

end Run

/-- A slot that holds an `i32` of its own holds some number. -/
theorem Activation.exists_stores {p : Program} {o : PinId} {a : Activation} (ho : p.IsData o)
    (howned : a.frame.state o = .owned) : ∃ k, IntKind.i32.contains k = true ∧ a.Stores p o k := by
  obtain ⟨place, hplace⟩ := ho.exists_storage? a.frame
  obtain ⟨bits, hread⟩ : ∃ bits, a.machine.memory.read place (.int .i32) = .int (IntKind.i32.wrap bits) :=
    ⟨_, Block.read_eq_number nofun⟩
  refine ⟨IntKind.i32.wrap bits, IntKind.contains_wrap _ _, howned, ?_⟩
  simp only [Activation.int?, Frame.value?, howned, hplace, Option.bind_some, hread]

namespace Run

open Program

variable {sc : Scope} {a : Activation} {c : Catalogue}

theorem readIntOr_of_stores (fallback : Run Int) {id : PinId} {k : Int} (h : a.Stores sc.program id k) :
    readIntOr fallback id sc a = .ok k a := by
  have hint := h.2
  unfold Activation.int? at hint
  obtain ⟨place, hplace, hread⟩ := Option.bind_eq_some_iff.mp hint
  have hframe : (frame : Run Frame) sc a = .ok a.frame a := rfl
  have hprogram : (program : Run Program) sc a = .ok sc.program a := rfl
  have hmemory : (memory : Run Memory) sc a = .ok a.machine.memory a := rfl
  rw [readIntOr, bind_of_ok hframe, bind_of_ok hprogram, hplace]
  dsimp only
  rw [bind_of_ok hmemory]
  split at hread
  · next hint =>
    cases hread
    rw [hint]
    rfl
  · cases hread

theorem agree_readIntOr (fallback : Run Int) {index : PinId} (hdata : sc.program.IsData index)
    (howned : a.frame.state index = .owned) :
    Agree (readIntOr fallback index) (readInt index) sc a (fun _ b => b = a) fun _ _ => False := by
  obtain ⟨k, -, hk⟩ := Activation.exists_stores hdata howned
  have hdefault : readInt index sc a = .ok k a := readIntOr_of_stores (pure 0) hk
  exact .of_eq ((readIntOr_of_stores fallback hk).trans hdefault.symm) (.of_ok hdefault rfl)

section Visit

variable (hp : sc.program.WellFormed c) (ha : sc.program.Arranged) (invoke : Invoke)
include hp ha

theorem lasts_index {index : PinId} (hindex : sc.program.IsIndex index) {id : NodeId} {n : ProgramNode}
    (hn : sc.program.node? id = some n) {i : PinId} (hi : i ∈ n.dataIn) :
    Lasts (fun f => f.state index = .owned) sc (pullInt invoke i) := by
  have hspares : ∀ o, ¬ sc.program.IsIndex o → Frame.Spares (fun f => f.state index = .owned) o := by
    intro o ho f state howned
    have hne : index ≠ o := fun he => ho (he ▸ hindex)
    exact (Frame.state_set_of_ne hne).trans howned
  exact lasts_pullInt invoke (ha.tolerates_of_spares hp hspares) (hspares i (ha.not_isIndex_input hn hi))

/-- A visit of a counting loop finds its index: one that is entered has just written it, and one that is visited again
is running. -/
theorem same_visitForOr (fallback : Run Int) {id : NodeId} {n : ProgramNode} (hn : sc.program.node? id = some n)
    (hop : n.op = .forLoop) (hf : sc.program.Marks a.frame) {via : Option PinId}
    (hagain : via = none → .forLoop n.id ∈ a.frame.loops) :
    Same sc a (visitForOr invoke fallback n via) (visitFor invoke n via) := by
  obtain rfl : n.id = id := hp.node_id id n hn
  rw [← visitForOr_zero]
  refine .look (looks_nth _ _) fun break' _ => .look (looks_nth _ _) fun index hnth =>
    .look (looks_nth _ _) fun body _ => .look (looks_nth _ _) fun completed _ => ?_
  have hindex : n.dataOut[0]? = some index := ((maintains_nth (I := fun _ => True) _ _ a trivial).ok hnth).2
  have hdata : sc.program.IsData index := hp.data n.id n hn index (.inr (List.mem_of_getElem? hindex))
  have hturn : ∀ {b : Activation}, b.frame.state index = .owned → Same sc b
      (do
        let stop ← pullInt invoke (← nth n.dataIn 1)
        if (← readIntOr fallback index) ≥ stop then complete n completed else target body)
      (do
        let stop ← pullInt invoke (← nth n.dataIn 1)
        if (← readInt index) ≥ stop then complete n completed else target body) := by
    intro b hb
    refine .look_nth fun i hi => .bind ⟨rfl, lasts_index hp ha invoke ⟨n.id, n, hn, hop, hindex⟩ hn hi b hb⟩ ?_
    exact fun stop d hd => .bind (agree_readIntOr fallback hdata hd.1) fun _ _ _ => .self _
  have hwrite : ∀ {b : Activation}, sc.program.Marks b.frame → ∀ k,
    Agree (writeInt index k) (writeInt index k) sc b
      (fun _ d => d.frame.state index = .owned) fun _ _ => True := fun hb k =>
    ⟨rfl, (marks_writeInt hdata hb k).mono (fun _ _ hd => hd.2) fun _ _ _ => trivial⟩
  split
  · exact .self _
  · cases via with
    | some input =>
      refine .look_nth fun i hi => ?_
      have hpull : Lasts sc.program.Marks sc (pullInt invoke i) :=
        lasts_pullInt invoke (Marks.tolerates hp ha) (Marks.spares (ha.not_isIndex_input hn hi))
      refine .bind ⟨rfl, hpull a hf⟩ fun start b hb => .bind (hwrite hb.1 start) fun _ d hd => ?_
      exact .of_ok (b := ()) rfl (hturn ((Frame.state_enterLoop _ _ _).trans hd))
    | none =>
      have howned := hf.index n.id n (hagain rfl) hn index hindex
      refine .bind (agree_readIntOr fallback hdata howned) ?_
      rintro current _ rfl
      exact .bind (hwrite hf _) fun _ d hd => hturn hd

end Visit

end Run

/-- What the markers of a call say is so: the loops are live nodes of their kinds, neighbours are different ones, and
the one output of data of a counting loop, its index, holds an `i32` of its own. -/
structure Activation.Meaningful (g : Graph) (p : Program) (a : Activation) : Prop where
  live : ∀ marker ∈ a.frame.loops, ∃ n, g.node? marker.node = some n ∧ n.kind = marker.kind
  separated : LoopMarker.Separated a.frame.loops
  index : ∀ id, .forLoop id ∈ a.frame.loops → ∃ q, g.pinsToward id .output false = [q] ∧ q.name = "Index" ∧
    q.type = .data "i32" .value ∧ ∃ k, IntKind.i32.contains k = true ∧ a.Stores p q.id k

/-- What the markers of a call that is over said was so before its result was moved out of a slot. -/
def Activation.WasMeaningful (g : Graph) (p : Program) (a : Activation) : Prop :=
  ∃ f, Activation.Meaningful g p ⟨f, a.machine⟩ ∧ (a.frame = f ∨ ∃ id, a.frame = f.set id .empty)

namespace Program

open Flowscript.Graph

variable {g : Graph} {c : Catalogue} {s : Setting} {p : Program} {a : Activation}

theorem kind_of_opOf_marker {n : Node} {marker : LoopMarker} (h : opOf c n = .ok marker.op) :
    n.kind = marker.kind := by
  have h := opOf_eq_ok_iff.mp h
  generalize n.kind = kind at h ⊢
  cases marker with
  | forLoop id => cases h with
    | forLoop => rfl
  | whileLoop id => cases h with
    | whileLoop => rfl

theorem Marks.exists_node (hg : g.Edited) (h : compile g c s = .ok p) (hf : p.Marks a.frame) {marker : LoopMarker}
    (hmarker : marker ∈ a.frame.loops) :
    ∃ node, g.node? marker.node = some node ∧ node.id = marker.node ∧ node.kind = marker.kind ∧
      g.NodeChecked c node ∧ ∃ n, p.node? marker.node = some n ∧
        n.dataOut = (g.pinsToward node.id .output false).map (·.id) := by
  obtain ⟨n, hn, hop⟩ := hf.loops marker hmarker
  obtain ⟨node, hnode, hid, hchecked, hcompile⟩ := exists_compiled hg.consistent h hn
  obtain ⟨op, hop', rfl⟩ := compileNode_eq hcompile
  obtain rfl : op = marker.op := hop
  exact ⟨node, hid ▸ hnode, hid, kind_of_opOf_marker hop', hchecked, _, hn, rfl⟩

theorem Marks.meaningful (hg : g.Edited) (h : compile g c s = .ok p) (hf : p.Marks a.frame) :
    a.Meaningful g p := by
  refine ⟨fun marker hmarker => ?_, hf.separated, fun id hmarker => ?_⟩
  · obtain ⟨node, hnode, -, hkind, -⟩ := hf.exists_node hg h hmarker
    exact ⟨node, hnode, hkind⟩
  · obtain ⟨node, hnode, hid, hkind, hchecked, n, hn, hout⟩ := hf.exists_node hg h hmarker
    obtain rfl : node.id = id := hid
    obtain ⟨specs, hspecs, hfits⟩ := hchecked.fitting
    rw [hkind] at hspecs
    cases hspecs
    have hfit : List.Forall₂ (fun s q => PinSpec.fits s q = true) [.dataOut "Index" "i32" .value]
        (g.pinsToward node.id .output false) := fits_toward hfits .output false
    generalize hpins : g.pinsToward node.id .output false = pins at hfit hout
    cases hfit with
    | @cons _ q _ _ hq hnone =>
      cases hnone
      obtain ⟨-, hname, htype⟩ := PinSpec.fits_iff.mp hq
      have howned : a.frame.state q.id = .owned := hf.index node.id n hmarker hn q.id (by rw [hout]; rfl)
      have hdata : p.IsData q.id := (wellFormed_of_compile hg h).data node.id n hn q.id
        (.inr (by rw [hout]; exact List.mem_cons_self))
      exact ⟨q, rfl, hname, htype, a.exists_stores hdata howned⟩

theorem Spent.wasMeaningful (hg : g.Edited) (h : compile g c s = .ok p) (hf : p.Spent a.frame) :
    a.WasMeaningful g p := by
  obtain ⟨f, hmarks, hframe⟩ := hf
  exact ⟨f, Marks.meaningful (a := ⟨f, a.machine⟩) hg h hmarks, hframe⟩

end Program

namespace Course

open Run Program

/-- A counting loop that is visited next finds its index: whatever came up with one in its place, the visit would be
the same. -/
def Indexed (r : Course) (m : Moment) : Prop :=
  ∀ arrival n, arrival? m.next m.act.frame = some arrival → arrival.Treats r.scope.program n .forLoop →
    ∀ fallback machine, visitForOr r.invoke fallback n arrival.via r.scope ⟨m.act.frame, machine⟩ =
      visitFor r.invoke n arrival.via r.scope ⟨m.act.frame, machine⟩

theorem indexed_of_marks {r : Course} {c : Catalogue} (hp : r.scope.program.WellFormed c)
    (ha : r.scope.program.Arranged) {m : Moment} (hf : r.scope.program.Marks m.act.frame) : r.Indexed m := by
  intro arrival n harrival htreats fallback machine
  cases arrival with
  | through t =>
    obtain ⟨q, -, hn, hop⟩ := htreats
    have hagain : some t = none → .forLoop n.id ∈ m.act.frame.loops := nofun
    exact (same_visitForOr (a := ⟨m.act.frame, machine⟩) hp ha r.invoke fallback hn hop.symm hf hagain).1
  | again marker =>
    obtain ⟨hn, hop⟩ := htreats
    have hmem := mem_loops_of_arrival? harrival
    cases marker with
    | whileLoop id => cases hop
    | forLoop id =>
      obtain ⟨n', hn', hop'⟩ := hf.loops _ hmem
      cases hn.symm.trans hn'
      obtain rfl : n.id = id := hp.node_id id n hn
      exact (same_visitForOr (a := ⟨m.act.frame, machine⟩) hp ha r.invoke fallback hn hop' hf fun _ => hmem).1

/-- Whatever a call of a compiled function comes to, statement by statement and when one fails, what its markers say is
so, and no visit of a counting loop lacks its index. -/
theorem markers_meaningful {g : Graph} {c : Catalogue} {s : Setting} {p : Program} (hg : g.Edited)
    (h : compile g c s = .ok p) :
    ∀ r : Course, r.scope.program = p → ∀ args frame machine,
      (∀ m, r.Opens args frame machine m →
        body r.invoke args r.ret r.scope ⟨frame, machine⟩ =
          Run.statements r.invoke r.ret patience m.next r.scope m.act ∧
        ∀ ms v, r.Runs m ms v → v.act.Meaningful g p ∧ r.Indexed v ∧
          ∀ res, r.outcome? v = some res →
            (∀ next a, res = .ok (.next next) a → a.Meaningful g p) ∧
            (∀ result a, res = .ok (.done result) a → a.WasMeaningful g p) ∧
            ∀ e a, res = .error e a → a.Meaningful g p) ∧
      ∀ before, p.takeFrame r.scope.seat r.scope.context before = .ok frame machine →
        Activation.Meaningful g p ⟨frame, machine⟩ ∧
        Ensures (body r.invoke args r.ret) r.scope ⟨frame, machine⟩ (fun _ a => a.WasMeaningful g p)
          fun _ a => a.Meaningful g p := by
  have hformed := wellFormed_of_compile hg h
  have harranged := arranged_of_compile hg h
  rintro r rfl args frame machine
  have hc := conserves_marks hformed harranged
  refine ⟨fun m hopens => ⟨hopens.body_eq hformed, fun ms v hruns => ?_⟩, fun before htake => ?_⟩
  · obtain ⟨before, htake⟩ := hopens.fresh
    obtain ⟨hnext, hframe⟩ := hopens.conserved hc (.of_takeFrame htake)
    obtain ⟨hnext, hframe⟩ := hc.runs hnext hframe hruns
    refine ⟨hframe.meaningful hg h, indexed_of_marks hformed harranged hframe, fun res hres => ?_⟩
    obtain ⟨hok, herror⟩ := hc.outcome hnext hframe hres
    exact ⟨fun next a he => Marks.meaningful hg h (hok _ a he).2,
      fun result a he => Spent.wasMeaningful hg h (hok _ a he), fun e a he => Marks.meaningful hg h (herror e a he)⟩
  · have hframe := Marks.of_takeFrame htake
    refine ⟨Marks.meaningful (a := ⟨frame, machine⟩) hg h hframe, ?_⟩
    exact (hc.body r.invoke args r.ret ⟨frame, machine⟩ hframe).mono (fun _ a ha => ha.wasMeaningful hg h)
      fun _ a ha => ha.meaningful hg h

/-- The frame of a call of the program with loops in loops, before it runs. -/
def gridFrame : Frame := { slots := Array.replicate 29 {}, firstBlock := 0, base := 696, mark := 0 }

def gridMachine : Machine :=
  let own := Interpreter.new { maxSteps := 0xffffffff }
  { memory := { next := 29 }, own := { own with stack := { own.stack with used := 744, highWater := 744 } } }

/-- Two counting loops are running, one in the body of the other, and the inner one is visited again next. -/
theorem gridding_markers_meaningful :
    Graph.Edited Program.gridding ∧ compile Program.gridding numbers {} = .ok gridding.scope.program ∧
      (∃ m ms v, gridding.Opens [] gridFrame gridMachine m ∧ gridding.Runs m ms v ∧ v.next = none ∧
        v.act.frame.loops = [.forLoop ⟨3⟩, .forLoop ⟨2⟩] ∧
        v.act.Meaningful Program.gridding gridding.scope.program ∧ gridding.Indexed v) ∧
      Ensures (body gridding.invoke [] none) gridding.scope ⟨gridFrame, gridMachine⟩
        (fun _ a => a.WasMeaningful Program.gridding gridding.scope.program)
        fun _ a => a.Meaningful Program.gridding gridding.scope.program := by
  have hformed := wellFormed_of_compile edited_gridding compile_gridding
  have houter : gridding.Plain (countingNode 2 2) 0 2 := plain_of_defaults rfl rfl rfl rfl (by decide) (by decide)
  have hinner : gridding.Plain (countingNode 3 9) 1 3 := plain_of_defaults rfl rfl rfl rfl (by decide) (by decide)
  have hin : ∀ {n s e}, gridding.Plain n s e → gridding.scope.program.OwnInputs n :=
    fun hn => ownInputs_of_compile edited_gridding compile_gridding hn.node
  have hopens : gridding.Opens [] gridFrame gridMachine ((countingNode 2 2).entering ⟨gridFrame, gridMachine⟩) :=
    ⟨rfl, ⟨{ own := .new { maxSteps := 0xffffffff } }, rfl⟩, _, rfl, rfl, rfl⟩
  have hfit : gridding.Fit ⟨gridFrame, gridMachine⟩ := ⟨Nat.le_refl _, rfl⟩
  obtain ⟨-, -, b, hstep, ⟨hnext, hloops, -⟩, hfit, -⟩ :=
    houter.enters calls_gridding hformed (hin houter) hfit (S := []) rfl nofun
  have hoccupied : ∀ m ∈ [LoopMarker.forLoop ⟨2⟩], m.node ≠ (countingNode 3 9).id := by
    simp [LoopMarker.node, countingNode]
  obtain ⟨-, -, v, hstep', ⟨hnext', hloops', -⟩, -⟩ :=
    hinner.enters calls_gridding hformed (hin hinner) hfit hloops hoccupied
  have hmoment : b = (countingNode 3 9).entering b.act := by
    obtain ⟨next, act⟩ := b
    cases hnext
    rfl
  rw [hmoment] at hstep
  have hruns := (Runs.one hstep).trans (Runs.one hstep')
  have hall := markers_meaningful edited_gridding compile_gridding gridding rfl [] gridFrame gridMachine
  obtain ⟨hmeaningful, hindexed, -⟩ := (hall.1 _ hopens).2 _ v hruns
  obtain ⟨before, htake⟩ := hopens.fresh
  exact ⟨edited_gridding, compile_gridding, ⟨_, _, v, hopens, hruns, hnext', hloops', hmeaningful, hindexed⟩,
    (hall.2 before htake).2⟩

end Course

end Flowscript
