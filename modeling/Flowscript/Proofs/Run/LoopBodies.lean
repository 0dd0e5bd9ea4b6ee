import Flowscript.Proofs.Run.LoopRounds
import Flowscript.Proofs.Run.StepBudget

/-! # Small bodies of counting loops

The body of a counting loop whose bounds are literals comes back if it leads nowhere, or into a loop of the same
kind that leads nowhere. It leaves the loop if it leads into a loop of which the body does so.
-/
namespace Flowscript

open Run

variable {α β : Type} {sc : Scope} {K : PinId → Prop} {a b c : Activation}

/-- What lasts of a running call: the number of slots, and the integers that some pins hold. -/
structure Activation.Retains (p : Program) (K : PinId → Prop) (a b : Activation) : Prop where
  size : b.frame.slots.size = a.frame.slots.size
  stores : ∀ o, K o → ∀ x, a.Stores p o x → b.Stores p o x

theorem Activation.Retains.of_eq {p : Program} (hframe : b.frame = a.frame)
    (hmemory : b.machine.memory = a.machine.memory) : a.Retains p K b := by
  refine ⟨by rw [hframe], fun o _ x hx => ?_⟩
  exact hx.of_eq hframe hmemory

theorem Activation.Retains.trans {p : Program} (h : a.Retains p K b) (h' : b.Retains p K c) : a.Retains p K c :=
  ⟨h'.size.trans h.size, fun o ho x hx => h'.stores o ho x (h.stores o ho x hx)⟩

namespace Run

def Calm (sc : Scope) (K : PinId → Prop) (x : Run α) : Prop :=
  ∀ a, Ensures x sc a (fun _ b => a.Retains sc.program K b) fun e _ => e.kind ≠ .executionTimeOut

theorem Calm.bind {x : Run β} {f : β → Run α} (hx : Calm sc K x) (hf : ∀ b, Calm sc K (f b)) :
    Calm sc K (x >>= f) := by
  intro a
  refine (hx a).bind fun y b hb => ?_
  exact (hf y b).mono (fun _ _ h => hb.trans h) fun _ _ h => h

theorem Calm.of_eq {x : Run α} {y : Activation → α} (h : ∀ a, x sc a = .ok (y a) a) : Calm sc K x :=
  fun a => .of_ok (h a) (.of_eq rfl rfl)

theorem calm_modifyFrame {f : Frame → Frame} (hf : ∀ g, ∃ loops, f g = { g with loops }) :
    Calm sc K (modifyFrame f) := by
  intro a
  obtain ⟨loops, heq⟩ := hf a.frame
  refine Ensures.run_modifyFrame_iff.mpr ?_
  rw [heq]
  exact ⟨rfl, fun o _ x hx => hx.congr rfl rfl fun _ _ => rfl⟩

theorem calm_readInt (id : PinId) : Calm sc K (readInt id) := by
  intro a
  simp only [readInt, Ensures.bind_iff, Ensures.run_frame_iff, Ensures.run_program_iff]
  cases a.frame.value? sc.program id with
  | none => exact .of_eq rfl rfl
  | some place =>
    simp only [Ensures.bind_iff, Ensures.run_memory_iff]
    cases a.machine.memory.read place (.int .i32) <;> exact .of_eq rfl rfl

theorem calm_writeInt {id : PinId} (k : Int) (hid : ¬ K id) : Calm sc K (writeInt id k) := by
  intro a
  have hsize : Lasts (fun f => f.slots.size = a.frame.slots.size) sc (writeInt id k) :=
    lasts_writeInt (fun f state hf => by rwa [Frame.size_slots_set]) k
  refine ((ensures_writeInt_others id k a).and (hsize a rfl)).mono ?_ fun _ _ h => h.1.elim
  rintro - b ⟨hkept, hsize, -⟩
  refine ⟨hsize, fun o ho => hkept o fun he => hid (he ▸ ho)⟩

end Run

namespace Course

theorem Literal.calm {r : Course} {i : PinId} {k : Int} {q : ProgramPin} {h : Handle} (hl : r.Literal i k q h)
    (hi : ¬ K i) : Calm r.scope K (pullInt r.invoke i) := by
  intro a
  have hsize : Lasts (fun f => f.slots.size = a.frame.slots.size) r.scope (pullInt r.invoke i) := by
    have hspares : ∀ id, Frame.Spares (fun f => f.slots.size = a.frame.slots.size) id := fun id f state hf => by
      dsimp only
      rwa [Frame.size_slots_set]
    exact lasts_pullInt r.invoke (.of_all hspares) (hspares i)
  refine ((hl.ensures_pullInt a).and (hsize a rfl)).mono ?_ fun _ _ h => h.1.elim
  rintro _ b ⟨⟨-, hkept⟩, hsize, -⟩
  refine ⟨hsize, fun o ho => hkept o fun he => hi (he ▸ ho)⟩

structure Plain (r : Course) (n : ProgramNode) (s e : Int) : Prop where
  node : r.scope.program.node? n.id = some n
  op : n.op = .forLoop
  start : ∀ i, n.dataIn[0]? = some i → ∃ q h, r.Literal i s q h
  stop : ∀ i, n.dataIn[1]? = some i → ∃ q h, r.Literal i e q h
  apart : ∀ i ∈ n.dataIn, i ∉ n.dataOut
  first : IntKind.i32.contains s = true
  last : IntKind.i32.contains e = true

structure Fit (r : Course) (a : Activation) : Prop where
  budget : 0xffffffff ≤ (a.machine.interpreter r.scope.seat).settings.maxSteps
  size : a.frame.slots.size = r.scope.program.pins.size

def Apart (n : ProgramNode) (id : PinId) : Prop := id ∉ n.dataIn ∧ id ∉ n.dataOut

/-- The index of a loop is one of those with which the body is entered. -/
def Counts (r : Course) (n : ProgramNode) (s e : Int) (a : Activation) : Prop :=
  ∃ x, s ≤ x ∧ x < e ∧ ∀ index ∈ n.dataOut.head?, a.Stores r.scope.program index x

structure Within (r : Course) (n : ProgramNode) (s e : Int) (S : List LoopMarker) (a : Activation) : Prop where
  loops : a.frame.loops = .forLoop n.id :: S
  counts : r.Counts n s e a

/-- The next statement enters a loop, or comes back to it from its body. -/
structure Due (r : Course) (n : ProgramNode) (s e : Int) (S : List LoopMarker) (v : Moment) : Prop where
  fit : r.Fit v.act
  comes : v.next = n.flowIn[0]? ∧ v.act.frame.loops = S ∨ v.next = none ∧ r.Within n s e S v.act

/-- The body of a loop leads into another one, and neither of the two is running yet. -/
structure Inner (r : Course) (n m : ProgramNode) (S : List LoopMarker) : Prop where
  ne : m.id ≠ n.id
  outside : ∀ k ∈ S, k.node ≠ n.id
  inner : ∀ k ∈ LoopMarker.forLoop n.id :: S, k.node ≠ m.id
  body : r.scope.program.follow n 0 = m.flowIn[0]?
  apart : ∀ index ∈ n.dataOut, Apart m index

/-- One of two loops is due, the second inside the body of the first. -/
def Nested (r : Course) (n m : ProgramNode) (s e s' e' : Int) (S : List LoopMarker) (v : Moment) : Prop :=
  r.Due n s e S v ∨ r.Counts n s e v.act ∧ r.Due m s' e' (.forLoop n.id :: S) v

def Leading (r : Course) (n m : ProgramNode) (s e : Int) (S : List LoopMarker) (v : Moment) : Prop :=
  r.Due n s e S v ∨ (∃ a, v = m.entering a ∧ r.Fit a ∧ a.frame.loops = .forLoop n.id :: S) ∨
    ∃ a, v = n.leaving a ∧ r.Fit a ∧ a.frame.loops = .forLoop m.id :: .forLoop n.id :: S

variable {r : Course} {c : Catalogue} {n m : ProgramNode} {s e s' e' x : Int} {S T : List LoopMarker}
  {u v w : Moment} {c' : Activation} {ms : List Moment} {arrival : Arrival} {P : Moment → Prop}

theorem Plain.counting (hn : r.Plain n s e) : r.Counting n s e where
  node := hn.node
  op := hn.op
  start i hi := by
    obtain ⟨q, h, hl⟩ := hn.start i hi
    exact hl.gives (hn.apart i (List.mem_of_getElem? hi))
  stop i hi := by
    obtain ⟨q, h, hl⟩ := hn.stop i hi
    exact hl.gives (hn.apart i (List.mem_of_getElem? hi))
  first := hn.first
  last := hn.last

/-- What every statement preserves holds of the last moment at which a loop was visited. -/
theorem Begins.last (hb : r.Begins n u ms w) (hu : P u)
    (hstep : ∀ v v', P v → (r.node? v = some n.id → (r.index? n v).isSome) → r.step? v = some v' → P v') :
    ∃ v, P v ∧ r.node? v = some n.id ∧ (r.index? n v).isSome ∧ r.step? v = some w := by
  obtain ⟨v, hv, hat⟩ := hb.visited
  obtain ⟨before, rfl⟩ := List.getLast?_eq_some_iff.mp hv
  obtain ⟨hruns, hlast⟩ := hb.runs.of_concat
  have hmem : v ∈ before ++ [v] := List.mem_append_right _ (List.mem_singleton_self v)
  refine ⟨v, hruns.induct hu (fun v' hv' => ?_) hstep, hat, hb.stays v hmem hat, hlast⟩
  exact hb.stays v' (List.mem_append_left _ hv')

theorem Begins.length_pos (hb : r.Begins n u ms w) : 0 < (r.entries n ms).length := by
  obtain ⟨v, hv, hat⟩ := hb.visited
  have hmem := List.mem_of_getLast? hv
  obtain ⟨x, hx⟩ := Option.isSome_iff_exists.mp (hb.stays v hmem hat)
  exact List.length_pos_of_mem (List.mem_filterMap.mpr ⟨v, hmem, hx⟩)

theorem affords_of (hu : P u)
    (hstep : ∀ v v', P v → (r.node? v = some n.id → (r.index? n v).isSome) → r.step? v = some v' → P v')
    (hP : ∀ v, P v → r.node? v = some n.id → ¬ r.Exceeds v) : r.Affords n u := by
  intro ms v hruns hstays hat
  exact hP v (hruns.induct hu hstays hstep) hat

section Visits

variable (hcalls : (Conduct.free .counting r.scope.seat).pact.Calls fun _ => r.invoke)
  (hp : r.scope.program.WellFormed c)

theorem Fit.ensures_tick (ha : r.Fit a) :
    Ensures tick r.scope a (fun _ b => r.Fit b ∧ b.frame = a.frame ∧ b.machine.memory = a.machine.memory)
      fun _ _ => False := by
  refine tick_ensures rfl fun f _ hmeter => ⟨fun _ => ⟨⟨?_, ha.size⟩, rfl, ?_⟩, fun hlt => ?_⟩
  · have hsettings : (f (a.machine.interpreter r.scope.seat)).settings = _ := congrArg Meter.settings hmeter
    rw [Machine.interpreter_modifyInterpreter, hsettings, Meter.settings_tick]
    exact ha.budget
  · exact a.machine.memory_modifyInterpreter r.scope.seat f
  · have hbudget := ha.budget
    omega

section Calm

variable (hn : r.Plain n s e)
include hp hn

theorem Plain.calm_complete {completed : PinId} (h : n.flowOut[1]? = some completed) :
    Calm r.scope K (complete n completed) := by
  refine Calm.bind (calm_modifyFrame fun g => g.exitLoop_eq n.id) fun _ => ?_
  exact .of_eq fun a => hn.counting.target_eq hp h a

theorem Plain.calm_visitFor (via : Option PinId) : Calm r.scope (Apart n) (visitFor r.invoke n via) := by
  obtain ⟨exec, leave, start, stop, body, completed, index, -, hleave, hstart, hstop, hbody, hcompleted, hindex⟩ :=
    hn.counting.pins hp
  obtain ⟨_, _, hl⟩ := hn.start start hstart
  obtain ⟨_, _, hl'⟩ := hn.stop stop hstop
  have hfirst : ¬ Apart n start := fun h => h.1 (List.mem_of_getElem? hstart)
  have hlast : ¬ Apart n stop := fun h => h.1 (List.mem_of_getElem? hstop)
  have hcount : ¬ Apart n index := fun h => h.2 (List.mem_of_getElem? hindex)
  have hturn : Calm r.scope (Apart n) (do
      let stop ← pullInt r.invoke stop
      if (← readInt index) ≥ stop then complete n completed else target body) := by
    refine (hl'.calm hlast).bind fun stop => (calm_readInt index).bind fun i => ?_
    split
    · exact hn.calm_complete hp hcompleted
    · exact .of_eq fun a => hn.counting.target_eq hp hbody a
  simp only [visitFor, nth_of_getElem? hleave, nth_of_getElem? hindex, nth_of_getElem? hbody,
    nth_of_getElem? hcompleted, nth_of_getElem? hstart, nth_of_getElem? hstop, pure_bind]
  split
  · exact hn.calm_complete hp hcompleted
  · cases via with
    | none => exact (calm_readInt index).bind fun i => (calm_writeInt _ hcount).bind fun _ => hturn
    | some via =>
      refine (hl.calm hfirst).bind fun i => (calm_writeInt _ hcount).bind fun _ => ?_
      exact (calm_modifyFrame fun g => g.enterLoop_eq _).bind fun _ => hturn

include hcalls

theorem Plain.visit (hv : r.Fit v.act) (harrival : arrival? v.next v.act.frame = some arrival)
    (hcomes : r.Comes n arrival) :
    ¬ r.Exceeds v ∧ ∀ w, r.step? v = some w → r.Fit w.act ∧ v.act.Retains r.scope.program (Apart n) w.act := by
  have hoc : r.outcome? v = some ((do tick; statement r.invoke r.ret arrival : Run Outcome) r.scope v.act) := by
    rw [outcome?, harrival, Option.map_some]
  have hensures : Ensures (do tick; statement r.invoke r.ret arrival : Run Outcome) r.scope v.act
      (fun _ b => r.Fit b ∧ v.act.Retains r.scope.program (Apart n) b) fun e _ => e.kind ≠ .executionTimeOut := by
    refine Ensures.bind (hv.ensures_tick.mono (fun _ _ h => h) fun _ _ h => h.elim) ?_
    rintro - a ⟨hfit, hframe, hmemory⟩
    have hvisit : Ensures (statement r.invoke r.ret arrival) r.scope a
        (fun o b => ∃ next, o = .next next ∧ a.Retains r.scope.program (Apart n) b)
        fun e _ => e.kind ≠ .executionTimeOut := by
      refine hn.counting.ensures_statement hcomes fun b hframe hmemory => ?_
      exact (hn.calm_visitFor hp arrival.via b).mono (fun _ _ h => (Activation.Retains.of_eq hframe hmemory).trans h)
        fun _ _ h => h
    refine (hvisit.and ((steady_statement (G := .growing) hcalls r.ret arrival).ensures (a := a) trivial)).mono ?_
      fun _ _ h => h.1
    rintro _ b ⟨⟨-, -, hretains⟩, hgrows⟩
    refine ⟨⟨?_, hretains.size.trans hfit.size⟩, (Activation.Retains.of_eq hframe hmemory).trans hretains⟩
    have hsettings : (b.machine.interpreter r.scope.seat).settings = _ :=
      (hgrows.machine.paced r.scope.seat).settings
    rw [hsettings]
    exact hfit.budget
  refine ⟨?_, fun w hw => ?_⟩
  · rintro ⟨e, b, herror, hkind⟩
    rw [hoc] at herror
    exact hensures.error (Option.some.inj herror) hkind
  · obtain ⟨b, hok, hact⟩ := exists_outcome hw
    rw [hoc] at hok
    obtain ⟨hfit, hretains⟩ := hensures.ok (Option.some.inj hok)
    rw [hact]
    refine ⟨⟨hfit.budget, hfit.size⟩, hretains.size, fun o ho x hx => ?_⟩
    exact (hretains.stores o ho x hx).congr rfl rfl fun _ _ => rfl

end Calm

variable (hn : r.Plain n s e) (hin : r.scope.program.OwnInputs n)
include hcalls hp hn hin

/-- Entering a loop runs its body, or leads on when there is nothing to count. -/
theorem Plain.enters (ha : r.Fit a) (hloops : a.frame.loops = S) (hS : ∀ m ∈ S, m.node ≠ n.id) :
    r.node? (n.entering a) = some n.id ∧ ¬ r.Exceeds (n.entering a) ∧
      ∃ b, r.step? (n.entering a) = some b ∧ r.Turned n S e s b.next b.act ∧ r.Fit b.act ∧
        a.Retains r.scope.program (Apart n) b.act := by
  obtain ⟨exec, -, -, -, -, -, -, hexec, -⟩ := hn.counting.pins hp
  have harrival : arrival? (n.entering a).next (n.entering a).act.frame = some (.through exec) := by
    rw [ProgramNode.entering, hexec]
    rfl
  obtain ⟨hbudget, hvisit⟩ := hn.visit hcalls hp ha harrival (hin.own exec (List.mem_of_getElem? hexec))
  obtain ⟨hat, b, hstep, hturned⟩ := hn.counting.visits_first hp hin hloops hS ha.size fun _ => hbudget
  obtain ⟨hfit, hretains⟩ := hvisit b hstep
  exact ⟨hat, hbudget, b, hstep, hturned, hfit, hretains⟩

theorem Plain.leaves (hc : r.Fit c') (hloops : c'.frame.loops = T ++ .forLoop n.id :: S)
    (hT : ∀ m ∈ T, m.node ≠ n.id) :
    r.node? (n.leaving c') = some n.id ∧ ¬ r.Exceeds (n.leaving c') ∧
      ∃ b, r.step? (n.leaving c') = some b ∧ b.next = r.scope.program.follow n 1 ∧ b.act.frame.loops = S := by
  obtain ⟨-, leave, -, -, -, -, -, -, hleave, -⟩ := hn.counting.pins hp
  have harrival : arrival? (n.leaving c').next (n.leaving c').act.frame = some (.through leave) := by
    rw [ProgramNode.leaving, hleave]
    rfl
  obtain ⟨hbudget, -⟩ := hn.visit hcalls hp hc harrival (hin.own leave (List.mem_of_getElem? hleave))
  obtain ⟨hat, hleaves⟩ := hn.counting.visits_leave hp hin hloops hT fun _ => hbudget
  exact ⟨hat, hbudget, hleaves⟩

theorem Due.visit (hv : r.Due n s e S v) (hS : ∀ m ∈ S, m.node ≠ n.id) :
    r.node? v = some n.id ∧ ¬ r.Exceeds v ∧
      ∃ w x, r.step? v = some w ∧ s ≤ x ∧ r.Turned n S e x w.next w.act ∧ r.Fit w.act ∧
        v.act.Retains r.scope.program (Apart n) w.act := by
  obtain ⟨next, a⟩ := v
  obtain ⟨hfit, ⟨rfl, hloops⟩ | ⟨rfl, hloops, x, hle, hlt, hx⟩⟩ := hv
  · obtain ⟨hat, hbudget, w, hw⟩ := hn.enters hcalls hp hin hfit hloops hS
    exact ⟨hat, hbudget, w, s, hw.1, Int.le_refl s, hw.2⟩
  · have harrival : arrival? none a.frame = some (.again (.forLoop n.id)) := by
      rw [arrival?, hloops]
      rfl
    obtain ⟨hbudget, hvisit⟩ := hn.visit hcalls hp hfit harrival rfl
    obtain ⟨hat, w, hstep, hturned⟩ := hn.counting.visits_again hp hloops hx hlt
      (hn.counting.contains_index hle hlt) fun _ => hbudget
    obtain ⟨hfit', hretains⟩ := hvisit w hstep
    exact ⟨hat, hbudget, w, x + 1, hstep, by omega, hturned, hfit', hretains⟩

theorem Due.step (hv : r.Due n s e S v) (hS : ∀ m ∈ S, m.node ≠ n.id) (hstep : r.step? v = some w) :
    r.Fit w.act ∧ v.act.Retains r.scope.program (Apart n) w.act ∧
      (w.next = r.scope.program.follow n 0 ∧ r.Within n s e S w.act ∨
        w.next = r.scope.program.follow n 1 ∧ w.act.frame.loops = S ∧ r.index? n v = none) := by
  obtain ⟨hat, -, w', x, hw', hle, hturned, hfit, hretains⟩ := hv.visit hcalls hp hn hin hS
  rw [hstep] at hw'
  cases hw'
  have hentry := hn.counting.index?_eq hp hat hstep hS hturned
  refine ⟨hfit, hretains, ?_⟩
  unfold Turned at hturned
  by_cases hlt : x < e
  · rw [if_pos hlt] at hturned
    exact .inl ⟨hturned.1, hturned.2.1, x, hle, hlt, hturned.2.2⟩
  · rw [if_neg hlt] at hturned hentry
    exact .inr ⟨hturned.1, hturned.2, hentry⟩

theorem Due.begins (hv : r.Due n s e S v) (hS : ∀ m ∈ S, m.node ≠ n.id)
    (hentry : r.node? v = some n.id → (r.index? n v).isSome) (hstep : r.step? v = some w) :
    w.next = r.scope.program.follow n 0 ∧ r.Within n s e S w.act ∧ r.Fit w.act := by
  obtain ⟨hfit, -, ⟨hnext, hwithin⟩ | ⟨-, -, hnone⟩⟩ := hv.step hcalls hp hn hin hS hstep
  · exact ⟨hnext, hwithin, hfit⟩
  · have hsome := hentry (hv.visit hcalls hp hn hin hS).1
    rw [hnone] at hsome
    cases hsome

section Empty

variable (hS : ∀ m ∈ S, m.node ≠ n.id) (hempty : r.scope.program.follow n 0 = none)
include hS hempty

theorem Due.again (hv : r.Due n s e S v) (hentry : r.node? v = some n.id → (r.index? n v).isSome)
    (hstep : r.step? v = some w) : r.Due n s e S w := by
  obtain ⟨hnext, hwithin, hfit⟩ := hv.begins hcalls hp hn hin hS hentry hstep
  exact ⟨hfit, .inr ⟨hnext.trans hempty, hwithin⟩⟩

theorem Due.affords (hu : r.Due n s e S u) : r.Affords n u :=
  affords_of hu (fun _ _ hv hentry hstep => hv.again hcalls hp hn hin hS hempty hentry hstep)
    fun _ hv _ => (hv.visit hcalls hp hn hin hS).2.1

theorem Due.returns {Q : List Moment → Prop} (hu : r.Due n s e S u) (hb : r.Begins n u ms w) (hQ : Q []) :
    r.Returns n S Q w := by
  obtain ⟨v, hv, -, hentry, hstep⟩ := hb.last hu fun _ _ hv hentry hstep =>
    hv.again hcalls hp hn hin hS hempty hentry hstep
  obtain ⟨hnext, hwithin, -⟩ := hv.begins hcalls hp hn hin hS (fun _ => hentry) hstep
  obtain ⟨next, a⟩ := w
  obtain rfl : next = none := hnext.trans hempty
  exact ⟨[], a, .refl _, fun _ h => absurd h List.not_mem_nil, hwithin.loops, fun _ _ _ h => h, hQ⟩

end Empty

section Inner

variable (hm : r.Plain m s' e') (hin' : r.scope.program.OwnInputs m) (hi : r.Inner n m S)
include hm hin' hi

section Nest

variable (hempty : r.scope.program.follow m 0 = none) (hdone : r.scope.program.follow m 1 = none)
include hempty hdone

omit hn hin in
theorem Due.nested (hv : r.Due m s' e' (.forLoop n.id :: S) v) (hcounts : r.Counts n s e v.act)
    (hstep : r.step? v = some w) :
    r.Nested n m s e s' e' S w ∧ ∀ index ∈ n.dataOut, ∀ x,
      v.act.Stores r.scope.program index x → w.act.Stores r.scope.program index x := by
  obtain ⟨hfit, hretains, houtcome⟩ := hv.step hcalls hp hm hin' hi.inner hstep
  have hkept : ∀ index ∈ n.dataOut, ∀ x, v.act.Stores r.scope.program index x →
    w.act.Stores r.scope.program index x :=
    fun index hindex => hretains.stores index (hi.apart index hindex)
  obtain ⟨x, hle, hlt, hx⟩ := hcounts
  have hcounts' : r.Counts n s e w.act :=
    ⟨x, hle, hlt, fun index hindex => hkept index (List.mem_of_head? hindex) x (hx index hindex)⟩
  refine ⟨?_, hkept⟩
  rcases houtcome with ⟨hnext, hwithin⟩ | ⟨hnext, hloops, -⟩
  · exact .inr ⟨hcounts', hfit, .inr ⟨hnext.trans hempty, hwithin⟩⟩
  · exact .inl ⟨hfit, .inr ⟨hnext.trans hdone, hloops, hcounts'⟩⟩

theorem Nested.step (hv : r.Nested n m s e s' e' S v) (hentry : r.node? v = some n.id → (r.index? n v).isSome)
    (hstep : r.step? v = some w) : r.Nested n m s e s' e' S w := by
  rcases hv with hv | ⟨hcounts, hv⟩
  · obtain ⟨hnext, hwithin, hfit⟩ := hv.begins hcalls hp hn hin hi.outside hentry hstep
    exact .inr ⟨hwithin.counts, hfit, .inl ⟨hnext.trans hi.body, hwithin.loops⟩⟩
  · exact (hv.nested hcalls hp hm hin' hi hempty hdone hcounts hstep).1

theorem Nested.affords (hu : r.Nested n m s e s' e' S u) : r.Affords n u := by
  refine affords_of hu (fun v w hv => hv.step hcalls hp hn hin hm hin' hi hempty hdone) fun v hv _ => ?_
  rcases hv with hv | ⟨-, hv⟩
  · exact (hv.visit hcalls hp hn hin hi.outside).2.1
  · exact (hv.visit hcalls hp hm hin' hi.inner).2.1

theorem Due.nests (hu : r.Due n s e S u) (hb : r.Begins n u ms w) : r.Nests n m S w := by
  obtain ⟨v, hv, hat, hentry, hstep⟩ := hb.last (P := r.Nested n m s e s' e' S) (.inl hu) fun _ _ hv =>
    hv.step hcalls hp hn hin hm hin' hi hempty hdone
  rcases hv with hv | ⟨-, hv⟩
  · obtain ⟨hnext, hwithin, hfit⟩ := hv.begins hcalls hp hn hin hi.outside (fun _ => hentry) hstep
    obtain ⟨next, a⟩ := w
    obtain rfl : next = m.flowIn[0]? := hnext.trans hi.body
    have hdue : r.Due m s' e' (.forLoop n.id :: S) (m.entering a) := ⟨hfit, .inl ⟨rfl, hwithin.loops⟩⟩
    have hnil : ∀ id, r.Avoids id [] := fun id v hv => absurd hv List.not_mem_nil
    have hnested : r.Nested n m s e s' e' S (m.entering a) := .inr ⟨hwithin.counts, hdue⟩
    have hloops : a.frame.loops = .forLoop n.id :: S := hwithin.loops
    refine ⟨[], a, .refl _, hnil n.id, hnil m.id, ⟨rfl, ?_, hfit.size, ?_⟩, ?_, ?_⟩
    · rw [hloops]
      exact hi.inner
    · exact hdue.affords hcalls hp hm hin' hi.inner hempty
    · rw [hloops]
      exact fun ms b hb => hdue.returns hcalls hp hm hin' hi.inner hempty hb (hnil n.id)
    · intro ms c hruns hclear hback
      rw [hdone] at hruns ⊢
      -- The index of the outer loop stays as long as the loop is not visited.
      have hkept := hruns.induct (P := fun v => r.Nested n m s e s' e' S v ∧ ∀ index ∈ n.dataOut, ∀ x,
        a.Stores r.scope.program index x → v.act.Stores r.scope.program index x)
        ⟨hnested, fun _ _ _ h => h⟩ hclear ?_
      · exact ⟨[], c, .refl _, hnil n.id, hnil m.id, hback.trans hloops, hkept.2⟩
      · rintro v w ⟨hv | ⟨hcounts, hv⟩, hkept⟩ hother hstep
        · exact absurd (hv.visit hcalls hp hn hin hi.outside).1 hother
        · obtain ⟨hnested, hstores⟩ := hv.nested hcalls hp hm hin' hi hempty hdone hcounts hstep
          exact ⟨hnested, fun index hindex x hx => hstores index hindex x (hkept index hindex x hx)⟩
  · have hother := (hv.visit hcalls hp hm hin' hi.inner).1
    rw [hat] at hother
    exact absurd (Option.some.inj hother).symm hi.ne

end Nest

section Leave

variable (hlt : s' < e') (hbreak : r.scope.program.follow m 0 = n.flowIn[1]?)
include hlt hbreak

omit hn hin in
theorem Inner.leads (ha : r.Fit a) (hloops : a.frame.loops = .forLoop n.id :: S) :
    r.node? (m.entering a) = some m.id ∧ ¬ r.Exceeds (m.entering a) ∧
      ∃ c, r.step? (m.entering a) = some (n.leaving c) ∧
      c.frame.loops = .forLoop m.id :: .forLoop n.id :: S ∧ r.Fit c := by
  obtain ⟨hat, hbudget, ⟨next, c⟩, hstep, hturned, hfit, -⟩ := hm.enters hcalls hp hin' ha hloops hi.inner
  rw [Turned, if_pos hlt] at hturned
  obtain rfl : next = n.flowIn[1]? := hturned.1.trans hbreak
  exact ⟨hat, hbudget, c, hstep, hturned.2.1, hfit⟩

omit hm hin' hlt hbreak in
theorem Inner.leaves (ha : r.Fit a) (hloops : a.frame.loops = .forLoop m.id :: .forLoop n.id :: S) :
    r.node? (n.leaving a) = some n.id ∧ ¬ r.Exceeds (n.leaving a) ∧ r.index? n (n.leaving a) = none := by
  have hother : ∀ k ∈ [LoopMarker.forLoop m.id], k.node ≠ n.id := by
    intro k hk
    rw [List.mem_singleton.mp hk]
    exact hi.ne
  obtain ⟨hat, hbudget, b, hstep, -, hafter⟩ := hn.leaves hcalls hp hin ha hloops hother
  exact ⟨hat, hbudget, index?_eq_none hstep hafter hi.outside⟩

theorem Leading.step (hv : r.Leading n m s e S v) (hentry : r.node? v = some n.id → (r.index? n v).isSome)
    (hstep : r.step? v = some w) : r.Leading n m s e S w := by
  rcases hv with hv | ⟨a, rfl, hfit, hloops⟩ | ⟨a, rfl, hfit, hloops⟩
  · obtain ⟨hnext, hwithin, hfit⟩ := hv.begins hcalls hp hn hin hi.outside hentry hstep
    obtain ⟨next, a⟩ := w
    obtain rfl : next = m.flowIn[0]? := hnext.trans hi.body
    exact .inr (.inl ⟨a, rfl, hfit, hwithin.loops⟩)
  · obtain ⟨-, -, c, hstep', hloops', hfit'⟩ := hi.leads hcalls hp hm hin' hlt hbreak hfit hloops
    rw [hstep] at hstep'
    cases hstep'
    exact .inr (.inr ⟨c, rfl, hfit', hloops'⟩)
  · obtain ⟨hat, -, hnone⟩ := hi.leaves hcalls hp hn hin hfit hloops
    have hsome := hentry hat
    rw [hnone] at hsome
    cases hsome

theorem Leading.affords (hu : r.Leading n m s e S u) : r.Affords n u := by
  refine affords_of hu (fun v w hv => hv.step hcalls hp hn hin hm hin' hi hlt hbreak) fun v hv _ => ?_
  rcases hv with hv | ⟨a, rfl, hfit, hloops⟩ | ⟨a, rfl, hfit, hloops⟩
  · exact (hv.visit hcalls hp hn hin hi.outside).2.1
  · exact (hi.leads hcalls hp hm hin' hlt hbreak hfit hloops).2.1
  · exact (hi.leaves hcalls hp hn hin hfit hloops).2.1

/-- A body that leads into a loop whose body leads out leaves both. -/
theorem Due.breaks (hu : r.Due n s e S u) (hb : r.Begins n u ms w) : r.Breaks n S w := by
  obtain ⟨v, hv, hat, hentry, hstep⟩ := hb.last (P := r.Leading n m s e S) (.inl hu) fun _ _ hv =>
    hv.step hcalls hp hn hin hm hin' hi hlt hbreak
  rcases hv with hv | ⟨a, rfl, hfit, hloops⟩ | ⟨a, rfl, hfit, hloops⟩
  · obtain ⟨hnext, hwithin, hfit⟩ := hv.begins hcalls hp hn hin hi.outside (fun _ => hentry) hstep
    obtain ⟨next, a⟩ := w
    obtain rfl : next = m.flowIn[0]? := hnext.trans hi.body
    obtain ⟨hat', -, c, hstep', hloops', -⟩ := hi.leads hcalls hp hm hin' hlt hbreak hfit hwithin.loops
    refine ⟨[m.entering a], c, [.forLoop m.id], .one hstep', fun v hv => ?_, hloops', fun k hk => ?_⟩
    · rw [List.mem_singleton.mp hv, hat']
      exact fun he => hi.ne (Option.some.inj he)
    · rw [List.mem_singleton.mp hk]
      exact hi.ne
  · have hother := (hi.leads hcalls hp hm hin' hlt hbreak hfit hloops).1
    rw [hat] at hother
    exact absurd (Option.some.inj hother).symm hi.ne
  · rw [(hi.leaves hcalls hp hn hin hfit hloops).2.2] at hentry
    cases hentry

end Leave

end Inner

end Visits

end Course

end Flowscript
