import Flowscript.Proofs.Graph.PinRenewal
import Flowscript.Proofs.Run.FramePreservation
import Flowscript.Proofs.Run.PinArrangement
import Flowscript.Proofs.Run.StoredIntegers

/-! # Visits of a counting loop

A counting loop is visited through its first input, after its body, or through its second input. What each of
these visits does depends on the index and on the loops that are running.
-/
namespace Flowscript

open Run

theorem Ensures.bind_of_ok {ρ ε σ α β : Type} {x : ReaderT ρ (EStateM ε σ) β}
    {f : β → ReaderT ρ (EStateM ε σ) α} {r : ρ} {s t : σ} {b : β} {Q : α → σ → Prop}
    {E : ε → σ → Prop}
    (hx : x r s = .ok b t) (h : Ensures (f b) r t Q E) : Ensures (x >>= f) r s Q E :=
  bind_iff.mpr (of_ok hx h)

namespace Frame

variable {f : Frame} {marker : LoopMarker} {S T : List LoopMarker}

theorem loops_exitLoop (h : f.loops = T ++ marker :: S) (hT : ∀ m ∈ T, m.node ≠ marker.node) :
    (f.exitLoop marker.node).loops = S := by
  have hdrop : f.loops.dropWhile (·.node != marker.node) = marker :: S := by
    rw [h, List.dropWhile_append_of_pos (fun m hm => by simpa using hT m hm)]
    simp
  simp only [exitLoop, hdrop]

theorem loops_enterLoop (h : ∀ m ∈ f.loops, m.node ≠ marker.node) :
    (f.enterLoop marker).loops = marker :: f.loops := by
  have hhead : f.loops.head?.map (·.node) ≠ some marker.node := by
    intro hhead
    obtain ⟨m, hm, hnode⟩ := Option.map_eq_some_iff.mp hhead
    exact h m (List.mem_of_head? hm) hnode
  rw [enterLoop, if_neg hhead]

end Frame

namespace Program

open Flowscript.Graph

structure OwnInputs (p : Program) (n : ProgramNode) : Prop where
  nodup : n.flowIn.Nodup
  own : ∀ i ∈ n.flowIn, ∃ q, p.pin? i = some q ∧ q.node = n.id

theorem ownInputs_of_compile {g : Graph} {c : Catalogue} {s : Setting} {p : Program} (hedited : g.Edited)
    (h : compile g c s = .ok p) {id : NodeId} {n : ProgramNode} (hn : p.node? id = some n) : p.OwnInputs n := by
  have hnumbered := hedited.numbered
  have hg := hedited.consistent
  obtain ⟨-, ha⟩ := assembled_of_compile hg h
  obtain ⟨node, hnode, rfl, hchecked, hcompile⟩ := exists_compiled hg h hn
  obtain ⟨op, -, rfl⟩ := compileNode_eq hcompile
  have hids : ((g.nodePins node.id).map (·.id)).Nodup := by
    rw [nodePins, hnode]
    exact nodup_pinsOf hg.pin_id node
  exact ⟨(List.filter_sublist.map _).nodup hids, fun i hi => ha.exists_own_pin hnumbered hg hnode hchecked hi⟩

end Program

namespace Run

variable {sc : Scope} {a : Activation}

theorem nth_of_getElem? {pins : List PinId} {index : Nat} {id : PinId} (h : pins[index]? = some id) :
    nth pins index = pure id := by
  simp only [nth, h]

theorem pin_of_pin? {id : PinId} {q : ProgramPin} (h : sc.program.pin? id = some q) (a : Activation) :
    pin id sc a = .ok q a := by
  have hprogram : (program : Run Program) sc a = .ok sc.program a := rfl
  rw [pin, bind_of_ok hprogram]
  simp only [h]
  rfl

theorem node_of_node? {id : NodeId} {n : ProgramNode} (h : sc.program.node? id = some n) (a : Activation) :
    node id sc a = .ok n a := by
  have hprogram : (program : Run Program) sc a = .ok sc.program a := rfl
  rw [node, bind_of_ok hprogram]
  simp only [h]
  rfl

theorem target_of_pin? {id : PinId} {q : ProgramPin} (h : sc.program.pin? id = some q) (a : Activation) :
    target id sc a = .ok q.target a := bind_of_ok (pin_of_pin? h a)

/-- Counting a step fails only if there are too many, and leaves frame and memory alone. -/
theorem ensures_tick (a : Activation) :
    Ensures tick sc a (fun _ b => b.frame = a.frame ∧ b.machine.memory = a.machine.memory)
      fun e _ => e.kind = .executionTimeOut := by
  simp only [tick, Ensures.bind_iff, Ensures.run_interpreter_iff]
  split
  · simp only [Ensures.bind_iff, Ensures.run_modifyInterpreter_iff, Ensures.throw_iff]
  · simp only [Ensures.run_modifyInterpreter_iff, true_and]
    exact a.machine.memory_modifyInterpreter sc.seat _

theorem ensures_noteNode (message : String) (n : ProgramNode) (a : Activation) :
    Ensures (noteNode message n) sc a (fun _ b => b.frame = a.frame ∧ b.machine.memory = a.machine.memory)
      fun _ _ => False := by
  simp only [noteNode, Ensures.bind_iff, Ensures.read_iff]
  cases sc.context.traceLimit with
  | none => exact ⟨rfl, rfl⟩
  | some limit =>
    simp only [Ensures.run_liftTotal_iff, Exec.trace, Ensures.bind_iff, Ensures.read_iff, true_and]
    split
    · split <;> rfl
    · rfl

end Run

/-- An error that more budget would avoid. -/
abbrev TimesOut (e : ScriptError) (_ : Activation) : Prop := e.kind = .executionTimeOut

namespace Course

/-- An input of a node always has the same integer, whenever it is pulled, and the outputs of the node keep
theirs meanwhile. -/
def Gives (r : Course) (n : ProgramNode) (i : PinId) (k : Int) : Prop :=
  ∀ a, Ensures (pullInt r.invoke i) r.scope a
    (fun j b => j = k ∧ ∀ o ∈ n.dataOut, ∀ x, a.Stores r.scope.program o x → b.Stores r.scope.program o x)
    TimesOut

/-- A counting loop of a program whose bounds are constant. -/
structure Counting (r : Course) (n : ProgramNode) (s e : Int) : Prop where
  node : r.scope.program.node? n.id = some n
  op : n.op = .forLoop
  start : ∀ i, n.dataIn[0]? = some i → r.Gives n i s
  stop : ∀ i, n.dataIn[1]? = some i → r.Gives n i e
  first : IntKind.i32.contains s = true
  last : IntKind.i32.contains e = true

/-- Where a visit of a loop goes on when the index is what it is then: in the body, or after the loop. -/
def Turned (r : Course) (n : ProgramNode) (S : List LoopMarker) (e x : Int) (next : Option PinId)
    (b : Activation) : Prop :=
  if x < e then
    next = r.scope.program.follow n 0 ∧ b.frame.loops = .forLoop n.id :: S ∧
      ∀ index ∈ n.dataOut.head?, b.Stores r.scope.program index x
  else next = r.scope.program.follow n 1 ∧ b.frame.loops = S

variable {r : Course} {c : Catalogue} {n : ProgramNode} {s e x : Int} {S T : List LoopMarker} {a : Activation}
  {index : PinId}

theorem Gives.ensures {i : PinId} {k : Int} (h : r.Gives n i k) (a : Activation) :
    Ensures (pullInt r.invoke i) r.scope a
      (fun j b => j = k ∧ b.frame.loops = a.frame.loops ∧ b.frame.slots.size = a.frame.slots.size ∧
        ∀ o ∈ n.dataOut, ∀ x, a.Stores r.scope.program o x → b.Stores r.scope.program o x) TimesOut := by
  have hspares : ∀ id, Frame.Spares (fun f => f.loops = a.frame.loops ∧ f.slots.size = a.frame.slots.size) id :=
    fun id f state hf => by
      dsimp only
      rwa [Frame.loops_set, Frame.size_slots_set]
  have hlasts : Lasts _ r.scope (pullInt r.invoke i) := lasts_pullInt r.invoke (.of_all hspares) (hspares i)
  refine ((h a).and (hlasts a ⟨rfl, rfl⟩)).mono ?_ fun _ _ he => he.1
  rintro j b ⟨⟨hj, hkept⟩, ⟨hloops, hsize⟩, -⟩
  exact ⟨hj, hloops, hsize, hkept⟩

/-- An integer is the default of an input that nothing is linked to. -/
structure Literal (r : Course) (i : PinId) (k : Int) (q : ProgramPin) (h : Handle) : Prop where
  pin : r.scope.program.pin? i = some q
  type : q.type = some h
  source : q.source = none
  default : q.default = some (.num (.int k))
  name : (r.scope.context.catalogue.info h).name = "i32"
  codec : (r.scope.context.catalogue.info h).codec = some (.native (.scalar (.int .i32)))
  fits : IntKind.i32.contains k = true

namespace Literal

variable {i : PinId} {q : ProgramPin} {h : Handle} {k : Int}

theorem pinType_eq (hl : r.Literal i k q h) (a : Activation) :
    pinType i r.scope a = .ok (r.scope.context.catalogue.info h) a := by
  rw [pinType, Flowscript.bind_of_ok (pin_of_pin? hl.pin a)]
  simp only [hl.type]
  rfl

theorem ensures_fallback (hl : r.Literal i k q h) (a : Activation) :
    Ensures (fallback r.invoke i) r.scope a
      (fun data b => ∃ place, data = some place ∧ b.machine.memory.read place (.int .i32) = .int k ∧
        ∀ o, o ≠ i → ∀ x, a.Stores r.scope.program o x → b.Stores r.scope.program o x) fun _ _ => False := by
  refine .bind_of_ok (pin_of_pin? hl.pin a) (.bind_of_ok (hl.pinType_eq a) ?_)
  refine .bind_of_ok (t := a) rfl ?_
  simp only [hl.default]
  refine (ensures_clear i a).bind ?_
  rintro - b ⟨hframe, hmemory⟩
  have hplace : b.frame.storage? r.scope.program i =
      some ⟨b.frame.firstBlock + (i.val - 1), 0, .stack (b.frame.base + q.storage)⟩ := by
    simp only [Frame.storage?, hl.pin, hl.type, Option.isSome_some, if_true]
  generalize (⟨b.frame.firstBlock + (i.val - 1), 0, .stack (b.frame.base + q.storage)⟩ : Place) = place at hplace
  have hstorage : storage i "data pin has no storage" r.scope b = .ok place b := by
    have hlook : storage? i r.scope b = .ok (some place) b := congrArg (EStateM.Result.ok · b) hplace
    rw [storage, Flowscript.bind_of_ok hlook]
    rfl
  refine .bind_of_ok hstorage (Ensures.bind_iff.mpr (Ensures.run_lift_iff.mpr ?_))
  simp only [Invoke.decodeAt, hl.codec, Invoke.decode, NativeCodec.decode, Prim.decode, hl.fits, if_true, bind, pure]
  refine Ensures.exec_modifyMemory_iff.mpr ?_
  refine (ensures_setOwned i _).bind ?_
  rintro - b' ⟨hframe', hmemory'⟩
  have hwrite : b'.machine.memory = b.machine.memory.write place (.int .i32) (.int k) := by
    rw [hmemory']
    exact congrArg (b.machine.memory.write · (.int .i32) (.int k)) place.shift_zero
  refine ⟨place, rfl, ?_, fun o ho x hx => ?_⟩
  · rw [hwrite]
    exact Memory.read_write_int _ place hl.fits
  · have hplace' : a.frame.storage? r.scope.program i = some place := by
      rw [← hplace, hframe, Frame.storage?_set]
    have hset : b'.frame = (a.frame.set i .empty).set i .owned := by
      rw [hframe', ← hframe]
    exact hx.of_write ho hplace' hset (hwrite.trans (by rw [hmemory]))

/-- Pulling the input always gives the integer, and leaves alone what other pins hold. -/
theorem ensures_pullInt (hl : r.Literal i k q h) (a : Activation) :
    Ensures (pullInt r.invoke i) r.scope a
      (fun j b => j = k ∧ ∀ o, o ≠ i → ∀ x, a.Stores r.scope.program o x → b.Stores r.scope.program o x)
      fun _ _ => False := by
  have hsupply : Ensures (supply r.invoke (pullWithin r.invoke r.scope.program.pins.size) i) r.scope a
      (fun data b => ∃ place, data = some place ∧ b.machine.memory.read place (.int .i32) = .int k ∧
        ∀ o, o ≠ i → ∀ x, a.Stores r.scope.program o x → b.Stores r.scope.program o x) fun _ _ => False := by
    refine .bind_of_ok (pin_of_pin? hl.pin a) ?_
    simp only [hl.source]
    exact hl.ensures_fallback a
  have hwatch : ∀ data b, Ensures (watchInput i data) r.scope b
      (fun _ b' => b'.frame = b.frame ∧ b'.machine.memory = b.machine.memory) fun _ _ => False := by
    intro data b
    simp only [watchInput, Ensures.bind_iff, Ensures.read_iff]
    split <;> exact ⟨rfl, rfl⟩
  refine Ensures.bind_iff.mpr (Ensures.bind_iff.mpr (.bind_of_ok (t := a) rfl ?_))
  refine hsupply.bind ?_
  rintro _ b ⟨place, rfl, hread, hkept⟩
  refine (hwatch _ b).bind ?_
  rintro - b' ⟨hframe, hmemory⟩
  have hexpect : expectType i "i32" r.scope b' = .ok () b' := by
    rw [expectType, Flowscript.bind_of_ok (hl.pinType_eq b')]
    simp only [hl.name, ne_eq, not_true_eq_false, if_false]
    rfl
  refine .bind_of_ok hexpect ?_
  simp only [Ensures.bind_iff, Ensures.run_memory_iff, Ensures.pure_iff, hmemory, hread, true_and]
  intro o ho x hx
  exact (hkept o ho x hx).of_eq hframe hmemory

theorem gives (hl : r.Literal i k q h) (hi : i ∉ n.dataOut) : r.Gives n i k := by
  intro a
  refine (hl.ensures_pullInt a).mono ?_ fun _ _ h => h.elim
  rintro j b ⟨hj, hkept⟩
  refine ⟨hj, fun o ho => hkept o fun he => hi (he ▸ ho)⟩

end Literal

section Visit

variable (hp : r.scope.program.WellFormed c) (hn : r.Counting n s e)
include hp hn

theorem Counting.pins : ∃ exec leave start stop body completed index, n.flowIn[0]? = some exec ∧
    n.flowIn[1]? = some leave ∧ n.dataIn[0]? = some start ∧ n.dataIn[1]? = some stop ∧
    n.flowOut[0]? = some body ∧ n.flowOut[1]? = some completed ∧ n.dataOut[0]? = some index := by
  have hsuits := hp.suits n.id n hn.node
  rw [Program.Suits, hn.op] at hsuits
  obtain ⟨-, hin, hout, hdata, start, stop, hstart, hstop, -⟩ := hsuits
  exact ⟨_, _, start, stop, _, _, _, List.getElem?_eq_getElem (Nat.zero_lt_of_lt hin),
    List.getElem?_eq_getElem hin, hstart, hstop, List.getElem?_eq_getElem (Nat.zero_lt_of_lt hout),
    List.getElem?_eq_getElem hout, List.getElem?_eq_getElem hdata⟩

theorem Counting.target_eq {k : Nat} {output : PinId} (h : n.flowOut[k]? = some output) (a : Activation) :
    target output r.scope a = .ok (r.scope.program.follow n k) a := by
  obtain ⟨q, hq⟩ := Option.isSome_iff_exists.mp (hp.flow n.id n hn.node output (List.mem_of_getElem? h))
  rw [target_of_pin? hq, Program.follow, h, Option.bind_some, hq, Option.bind_some]

theorem Counting.ensures_complete {completed : PinId} (h : n.flowOut[1]? = some completed)
    (hloops : a.frame.loops = T ++ .forLoop n.id :: S) (hT : ∀ m ∈ T, m.node ≠ n.id) :
    Ensures (complete n completed) r.scope a
      (fun next b => next = r.scope.program.follow n 1 ∧ b.frame.loops = S) TimesOut := by
  refine Ensures.bind_iff.mpr (Ensures.run_modifyFrame_iff.mpr ?_)
  refine Ensures.of_ok (hn.target_eq hp h _) ⟨rfl, ?_⟩
  exact Frame.loops_exitLoop hloops hT

theorem Counting.ensures_turn {stop body completed : PinId} (hstop : n.dataIn[1]? = some stop)
    (hbody : n.flowOut[0]? = some body) (hcompleted : n.flowOut[1]? = some completed)
    (hindex : n.dataOut[0]? = some index) (hloops : a.frame.loops = .forLoop n.id :: S)
    (hx : a.Stores r.scope.program index x) :
    Ensures (do
      let stop ← pullInt r.invoke stop
      if (← readInt index) ≥ stop then complete n completed else target body) r.scope a
      (r.Turned n S e x) TimesOut := by
  refine ((hn.stop stop hstop).ensures a).bind ?_
  rintro _ b ⟨rfl, hloops', -, hkept⟩
  have hx' := hkept index (List.mem_of_getElem? hindex) x hx
  refine Ensures.bind ((ensures_readInt hx').mono (fun _ _ h => h) fun _ _ h => h.elim) ?_
  rintro _ b ⟨rfl, rfl⟩
  rw [hloops] at hloops'
  unfold Turned
  split
  · rename_i hge
    simp only [if_neg (Int.not_lt.mpr hge)]
    exact hn.ensures_complete hp hcompleted (T := []) hloops' nofun
  · rename_i hlt
    simp only [if_pos (Int.not_le.mp hlt)]
    refine Ensures.of_ok (hn.target_eq hp hbody b) ⟨rfl, hloops', ?_⟩
    rw [List.head?_eq_getElem?, hindex]
    rintro _ ⟨⟩
    exact hx'

theorem Counting.isData (hindex : n.dataOut[0]? = some index) : r.scope.program.IsData index :=
  hp.data n.id n hn.node index (.inr (List.mem_of_getElem? hindex))

theorem Counting.visit_first {exec : PinId} (hexec : n.flowIn[0]? = some exec) (hnodup : n.flowIn.Nodup)
    (hsize : a.frame.slots.size = r.scope.program.pins.size) (hloops : a.frame.loops = S)
    (hS : ∀ m ∈ S, m.node ≠ n.id) :
    Ensures (visitFor r.invoke n (some exec)) r.scope a (r.Turned n S e s) TimesOut := by
  obtain ⟨_, leave, start, stop, body, completed, index, -, hleave, hstart, hstop, hbody, hcompleted, hindex⟩ :=
    hn.pins hp
  have hne : exec ≠ leave := by
    intro he
    rw [← he, ← hexec] at hleave
    have hlt : 1 < n.flowIn.length := by
      by_contra hge
      rw [hexec, List.getElem?_eq_none (Nat.le_of_not_lt hge)] at hleave
      cases hleave
    exact absurd ((List.getElem?_inj hlt hnodup).mp hleave) Nat.one_ne_zero
  simp only [visitFor, nth_of_getElem? hleave, nth_of_getElem? hindex, nth_of_getElem? hbody,
    nth_of_getElem? hcompleted, nth_of_getElem? hstart, nth_of_getElem? hstop, pure_bind, Option.some.injEq,
    if_neg hne]
  refine ((hn.start start hstart).ensures a).bind ?_
  rintro _ b ⟨rfl, hloops', hsize', -⟩
  have hmem : index ∈ b.frame.ids := by
    obtain ⟨q, -, hq, -⟩ := hn.isData hp hindex
    exact Frame.mem_ids_of_pin? (hsize'.trans hsize) hq
  have hwrite := (ensures_writeInt (hn.isData hp hindex) hmem hn.first).and (quiet_writeInt index _ r.scope b)
  refine Ensures.bind (hwrite.mono (fun _ _ h => h) fun _ _ h => h.1.elim) ?_
  rintro - b' ⟨hstores, hloops''⟩
  have hentered : (b'.frame.enterLoop (.forLoop n.id)).loops = .forLoop n.id :: S := by
    rw [← hloops, ← hloops', ← hloops'']
    refine Frame.loops_enterLoop fun m hm => hS m ?_
    rwa [hloops'', hloops', hloops] at hm
  refine Ensures.bind_iff.mpr (Ensures.run_modifyFrame_iff.mpr ?_)
  refine hn.ensures_turn hp hstop hbody hcompleted hindex hentered ?_
  obtain ⟨loops, heq⟩ := b'.frame.enterLoop_eq (.forLoop n.id)
  rw [heq]
  exact hstores.congr rfl rfl fun _ _ => rfl

/-- A visit after the body counts up. The index does not saturate, because it was below the end. -/
theorem Counting.visit_again (hloops : a.frame.loops = .forLoop n.id :: S)
    (hx : ∀ index ∈ n.dataOut.head?, a.Stores r.scope.program index x) (hlt : x < e)
    (hlow : IntKind.i32.contains x = true) :
    Ensures (visitFor r.invoke n none) r.scope a (r.Turned n S e (x + 1)) TimesOut := by
  obtain ⟨_, leave, start, stop, body, completed, index, -, hleave, hstart, hstop, hbody, hcompleted, hindex⟩ :=
    hn.pins hp
  have hstores := hx index (by rw [List.head?_eq_getElem?, hindex]; rfl)
  have hlast := hn.last
  simp only [IntKind.contains, IntKind.least, IntKind.greatest, IntKind.signed, IntKind.modulus, if_true,
    Bool.and_eq_true, decide_eq_true_eq] at hlow hlast
  have hmin : min (x + 1) 0x7fffffff = x + 1 := by omega
  have hnext : IntKind.i32.contains (x + 1) = true := by
    simp only [IntKind.contains, IntKind.least, IntKind.greatest, IntKind.signed, IntKind.modulus, if_true,
      Bool.and_eq_true, decide_eq_true_eq]
    omega
  simp only [visitFor, nth_of_getElem? hleave, nth_of_getElem? hindex, nth_of_getElem? hbody,
    nth_of_getElem? hcompleted, nth_of_getElem? hstop, pure_bind, reduceCtorEq, if_false]
  refine Ensures.bind ((ensures_readInt hstores).mono (fun _ _ h => h) fun _ _ h => h.elim) ?_
  rintro _ b ⟨rfl, rfl⟩
  rw [hmin]
  have hwrite := (ensures_writeInt (hn.isData hp hindex) hstores.mem_ids hnext).and
    (quiet_writeInt index _ r.scope b)
  refine Ensures.bind (hwrite.mono (fun _ _ h => h) fun _ _ h => h.1.elim) ?_
  rintro - b' ⟨hstores', hloops'⟩
  exact hn.ensures_turn hp hstop hbody hcompleted hindex (hloops'.trans hloops) hstores'

theorem Counting.visit_leave {leave : PinId} (hleave : n.flowIn[1]? = some leave)
    (hloops : a.frame.loops = T ++ .forLoop n.id :: S) (hT : ∀ m ∈ T, m.node ≠ n.id) :
    Ensures (visitFor r.invoke n (some leave)) r.scope a
      (fun next b => next = r.scope.program.follow n 1 ∧ b.frame.loops = S) TimesOut := by
  obtain ⟨_, _, start, stop, body, completed, index, -, -, -, -, hbody, hcompleted, hindex⟩ := hn.pins hp
  simp only [visitFor, nth_of_getElem? hleave, nth_of_getElem? hindex, nth_of_getElem? hbody,
    nth_of_getElem? hcompleted, pure_bind, if_true]
  exact hn.ensures_complete hp hcompleted hloops hT

end Visit

end Course

end Flowscript
