import Flowscript.Proofs.Machine.LookupOperations
import Flowscript.Proofs.Machine.MachineStanding

/-! # Steady calls

While a call runs, the stack only grows, the seat, the depth and the world stay as the call has set
them, and the meter counts steps. `Steady` says so of the computations of a call, wherever a
`Conduct` holds. Taking room on the stack is undone by `withStack` and when the frame is given back,
so that a call as a whole keeps the standing, however it ends.
-/
namespace Flowscript

open Filter

theorem le_roundUp (n align : Nat) : n ≤ roundUp n align := by
  unfold roundUp
  split
  · exact Nat.le_refl n
  · rename_i hne
    have hdiv := Nat.div_add_mod (n + align - 1) align
    have hmod := Nat.mod_lt (n + align - 1) (Nat.pos_of_ne_zero hne)
    rw [Nat.mul_comm] at hdiv
    omega

/-- Taking room moves the top of the stack up by the size at least, and not beyond its capacity. -/
theorem BumpStack.alloc?_le {s s' : BumpStack} {l : Layout} {start : Nat}
    (h : s.alloc? l = some (start, s')) :
    s.used + l.size ≤ s'.used ∧ s'.used ≤ s.capacity ∧ s'.capacity = s.capacity := by
  simp only [alloc?] at h
  split at h
  · rename_i hstop
    cases h
    have := le_roundUp s.used l.align
    dsimp only
    omega
  · cases h

/-- On the way, a call only takes more of its interpreter's stack. -/
structure Machine.Grows (r : Pace) (seat : Seat) (m m' : Machine) : Prop where
  current : m'.current = m.current
  depth : (m'.interpreter seat).depth = (m.interpreter seat).depth
  world : (m'.interpreter seat).world = (m.interpreter seat).world
  used : (m.interpreter seat).stack.used ≤ (m'.interpreter seat).stack.used
  others : ∀ other, other ≠ seat → (m'.interpreter other).stance = (m.interpreter other).stance
  paced : m.Paced r m'

namespace Machine.Grows

variable {r : Pace} {seat : Seat} {m m' m'' : Machine}

theorem of_kept (h : m.Kept r m') : Grows r seat m m' := by
  have hs : ∀ other, (m'.interpreter other).stance = (m.interpreter other).stance :=
    fun other => congrFun (congrArg Standing.stance h.standing) other
  exact ⟨congrArg Standing.current h.standing, congrArg Stance.depth (hs seat),
    congrArg Stance.world (hs seat), Nat.le_of_eq (congrArg Stance.used (hs seat)).symm,
    fun other _ => hs other, h.paced⟩

theorem trans (h : Grows r seat m m') (h' : Grows r seat m' m'') : Grows r seat m m'' :=
  ⟨h'.current.trans h.current, h'.depth.trans h.depth, h'.world.trans h.world,
    Nat.le_trans h.used h'.used, fun other ho => (h'.others other ho).trans (h.others other ho),
    h.paced.trans h'.paced⟩

theorem take {stack : BumpStack} (h : (m.interpreter seat).stack.used ≤ stack.used)
    (hc : stack.capacity = (m.interpreter seat).stack.capacity) :
    Grows r seat m (m.modifyInterpreter seat fun i => { i with stack }) := by
  refine ⟨m.current_modifyInterpreter seat _, ?_, ?_, ?_, fun other ho => ?_,
    .modifyInterpreter ?_⟩
  · rw [Machine.interpreter_modifyInterpreter]
  · rw [Machine.interpreter_modifyInterpreter]
  · rw [Machine.interpreter_modifyInterpreter]
    exact h
  · rw [Machine.interpreter_modifyInterpreter_of_ne m ho]
  · simp only [Interpreter.meter, hc]
    exact r.refl _

theorem kept_rewind (h : Grows r seat m m') :
    m.Kept r (m'.modifyInterpreter seat fun i =>
      { i with stack := i.stack.rewind (m.interpreter seat).stack.used }) := by
  refine ⟨?_, h.paced.trans (.modifyInterpreter (r.refl _))⟩
  simp only [Machine.standing, Machine.current_modifyInterpreter, h.current, Standing.mk.injEq,
    true_and]
  funext other
  by_cases ho : other = seat
  · rw [ho, Machine.interpreter_modifyInterpreter]
    simp only [Interpreter.stance, BumpStack.rewind, h.depth, h.world, Nat.min_eq_left h.used]
  · rw [Machine.interpreter_modifyInterpreter_of_ne m' ho, h.others other ho]

end Machine.Grows

/-- The same of a running call, whose frame also remembers how much of the stack was in use and where its storage
starts. -/
structure Activation.Grows (r : Pace) (seat : Seat) (a b : Activation) : Prop where
  mark : b.frame.mark = a.frame.mark
  base : b.frame.base = a.frame.base
  machine : a.machine.Grows r seat b.machine

theorem Activation.Grows.trans {r : Pace} {seat : Seat} {a b c : Activation} (h : a.Grows r seat b)
    (h' : b.Grows r seat c) : a.Grows r seat c :=
  ⟨h'.mark.trans h.mark, h'.base.trans h.base, h.machine.trans h'.machine⟩

/-- How a call moves from one of its states to another: it gives back at once what it takes of the stack, or only
later. Whatever the machine does without it is a move. -/
structure Gait (r : Pace) (seat : Seat) where
  rel : Activation → Activation → Prop
  trans : ∀ {a b c}, rel a b → rel b c → rel a c
  of_kept : ∀ {a b : Activation}, b.frame.mark = a.frame.mark → b.frame.base = a.frame.base →
    a.machine.Kept r b.machine → rel a b
  grows : ∀ {a b}, rel a b → a.Grows r seat b

namespace Gait

variable {r : Pace} {seat : Seat} {a b : Activation}

theorem refl (G : Gait r seat) (a : Activation) : G.rel a a := G.of_kept rfl rfl (.refl _)

theorem of_machine (G : Gait r seat) {f : Frame} {m m' : Machine} (h : m.Kept r m') : G.rel ⟨f, m⟩ ⟨f, m'⟩ :=
  G.of_kept rfl rfl h

def growing : Gait r seat where
  rel a b := a.Grows r seat b
  trans h h' := h.trans h'
  of_kept hmark hbase h := ⟨hmark, hbase, .of_kept h⟩
  grows h := h

/-- What was taken of the stack is given back. -/
def level : Gait r seat where
  rel a b := b.frame.mark = a.frame.mark ∧ b.frame.base = a.frame.base ∧ a.machine.Kept r b.machine
  trans h h' := ⟨h'.1.trans h.1, h'.2.1.trans h.2.1, h.2.2.trans h'.2.2⟩
  of_kept hmark hbase h := ⟨hmark, hbase, h⟩
  grows h := ⟨h.1, h.2.1, .of_kept h.2.2⟩

end Gait

/-- Where the computations of a call on a seat may run: what holds there lasts while the stack
grows. -/
structure Conduct (ι : Type) (seat : Seat) where
  /-- The computations settle along this filter. -/
  along : Filter ι
  [neBot : along.NeBot]
  pace : Pace
  holds : Context → Machine → Prop
  lasts : ∀ {w m m'}, holds w m → m.Grows pace seat m' → holds w m'

attribute [instance] Conduct.neBot

/-- All computations of a family, wherever what is said of the machine lasts. -/
def Conduct.whenever {ι : Type} [Nonempty ι] {seat : Seat} (pace : Pace) (holds : Machine → Prop)
    (lasts : ∀ {m m'}, holds m → m.Grows pace seat m' → holds m') : Conduct ι seat where
  along := ⊤
  pace := pace
  holds _ := holds
  lasts := lasts

def Conduct.free (r : Pace) (seat : Seat) : Conduct Unit seat := .whenever r (fun _ => True) fun _ _ => trivial

def Conduct.pact {ι : Type} {seat : Seat} (C : Conduct ι seat) : Pact ι where
  along := C.along
  neBot := C.neBot
  pace := C.pace
  holds := C.holds
  stable hm h := C.lasts hm (.of_kept h)

variable {ι ε α β : Type} {sc : Scope} {C : Conduct ι sc.seat} {G : Gait C.pace sc.seat}

/-- Computations of a call settle and move as they may. -/
def Steady (sc : Scope) (C : Conduct ι sc.seat) (G : Gait C.pace sc.seat) (x : ι → Run α) : Prop :=
  ∀ a, C.holds sc.context a.machine → Settles C.along x sc a (fun _ b => G.rel a b) fun _ b => G.rel a b

namespace Steady

theorem ensures {x : Run α} {a : Activation} (hx : Steady sc C G fun _ => x)
    (ha : C.holds sc.context a.machine) :
    Ensures x sc a (fun _ b => G.rel a b) fun _ b => G.rel a b :=
  (hx a ha).ensures

theorem growing {x : ι → Run α} (hx : Steady sc C G x) : Steady sc C .growing x := fun a ha =>
  (hx a ha).mono (fun _ _ h => G.grows h) fun _ _ h => G.grows h

theorem bind {x : ι → Run β} {f : ι → β → Run α} (hx : Steady sc C G x)
    (hf : ∀ b, Steady sc C G fun i => f i b) : Steady sc C G fun i => x i >>= f i := by
  intro a ha
  refine (hx a ha).bind fun b t ht => ?_
  exact (hf b t (C.lasts ha (G.grows ht).machine)).mono (fun _ _ => G.trans ht) fun _ _ => G.trans ht

theorem looks {x : Run α} (hx : Looks x) : Steady sc C G fun _ => x := fun a _ =>
  .const ((hx sc a).mono (fun _ _ h => by rw [h]; exact G.refl a) fun _ _ h => by
    rw [h]; exact G.refl a)

theorem pure (r : α) : Steady sc C G (fun _ => Pure.pure r : ι → Run α) := looks (.pure r)

theorem throw (e : ScriptError) : Steady sc C G (fun _ => MonadExcept.throw e : ι → Run α) :=
  looks (.throw e)

theorem lift {x : ι → Exec ε α} (f : ε → ScriptError) (hx : C.pact.Keeps x) :
    Steady sc C G fun i => Run.lift f (x i) := fun a ha =>
  Settles.run_lift ((hx sc.context a.machine ha).mono (fun _ _ h => G.of_machine h)
    fun _ _ h => G.of_machine h)

theorem liftTotal {x : ι → Exec Empty α} (hx : C.pact.Keeps x) :
    Steady sc C G fun i => Run.liftTotal (x i) := fun a ha =>
  Settles.run_liftTotal ((hx sc.context a.machine ha).mono (fun _ _ h => G.of_machine h)
    fun _ _ _ => trivial)

theorem mapError {x : ι → Run α} (f : ScriptError → ScriptError) (hx : Steady sc C G x) :
    Steady sc C G fun i => (x i).mapError f := fun a ha =>
  Settles.run_mapError (E := fun _ b => G.rel a b) (hx a ha)

theorem attempt {x : ι → Run α} (hx : Steady sc C G x) : Steady sc C G fun i => (x i).attempt :=
  fun a ha => (hx a ha).run_attempt

theorem andFinally {x : ι → Run α} {after : Exec Empty Unit} (hx : Steady sc C G x)
    (hafter : C.pact.Keeps fun _ => after) : Steady sc C G fun i => (x i).andFinally after := by
  have hend : ∀ a b : Activation, C.holds sc.context a.machine → G.rel a b →
      Ensures after sc.context b.machine (fun _ m => G.rel a ⟨b.frame, m⟩) fun _ _ => True := fun a b ha hb =>
    (hafter.ensures (C.lasts ha (G.grows hb).machine)).mono (fun _ _ h => G.trans hb (G.of_machine h))
      fun _ _ _ => trivial
  exact fun a ha => Settles.run_andFinally
    ((hx a ha).mono (fun _ b hb => hend a b ha hb) fun _ b hb => hend a b ha hb)

theorem modifyFrame {f : Frame → Frame} (hf : ∀ fr, (f fr).mark = fr.mark ∧ (f fr).base = fr.base) :
    Steady sc C G fun _ => Run.modifyFrame f := fun a _ =>
  .const (G.of_kept (hf a.frame).1 (hf a.frame).2 (.refl _))

theorem modifyInterpreter {f : Interpreter → Interpreter} (hf : ∀ i, (f i).stance = i.stance)
    (hf' : ∀ i, (f i).meter = i.meter) : Steady sc C G fun _ => Run.modifyInterpreter f := fun a _ =>
  .const (G.of_machine ⟨a.machine.standing_modifyInterpreter sc.seat (hf _),
    .modifyInterpreter (hf' _ ▸ C.pace.refl _)⟩)

end Steady

namespace Run

variable {invoke : ι → Invoke}

theorem steady_noteNode (message : String) (n : ProgramNode) :
    Steady sc C G fun _ => noteNode message n := by
  refine (Steady.looks .read).bind fun s => ?_
  cases s.context.traceLimit with
  | none => exact .pure _
  | some limit => exact .liftTotal (Exec.keeps_trace _ _)

theorem tick_ensures {a : Activation} {Q : Unit → Activation → Prop}
    {E : ScriptError → Activation → Prop} {i : Interpreter}
    (hi : a.machine.interpreter sc.seat = i)
    (hcounts : ∀ f : Interpreter → Interpreter, (f i).stance = i.stance → (f i).meter = i.meter.tick →
      (min (i.steps + 1) 0xffffffff ≤ i.settings.maxSteps →
        Q () ⟨a.frame, a.machine.modifyInterpreter sc.seat f⟩) ∧
      (i.settings.maxSteps < min (i.steps + 1) 0xffffffff → ∀ e : ScriptError,
        e.kind = .executionTimeOut → E e ⟨a.frame, a.machine.modifyInterpreter sc.seat f⟩)) :
    Ensures tick sc a Q E := by
  simp only [tick, Ensures.bind_iff, Ensures.run_interpreter_iff, hi]
  split
  · rename_i hgt
    exact (hcounts _ rfl (if_neg (Nat.not_le.mpr hgt)).symm).2 hgt _ rfl
  · rename_i hle
    exact (hcounts _ rfl (if_pos (Nat.not_lt.mp hle)).symm).1 (Nat.not_lt.mp hle)

theorem steady_tick : Steady sc C G fun _ => tick := by
  intro a _
  refine .const (tick_ensures rfl fun f hstance hmeter => ?_)
  have hmove : G.rel a ⟨a.frame, a.machine.modifyInterpreter sc.seat f⟩ :=
    G.of_machine ⟨a.machine.standing_modifyInterpreter sc.seat hstance,
      .modifyInterpreter (hmeter ▸ C.pace.tick _)⟩
  exact ⟨fun _ => hmove, fun _ _ _ => hmove⟩

theorem steady_set (id : PinId) (state : SlotState) :
    Steady sc C G fun _ => modifyFrame (·.set id state) := by
  refine .modifyFrame fun fr => ?_
  unfold Frame.set
  split <;> exact ⟨rfl, rfl⟩

theorem steady_clear (id : PinId) : Steady sc C G fun _ => clear id := by
  refine (Steady.looks looks_program).bind fun p => (Steady.looks looks_frame).bind fun f => ?_
  dsimp only
  split
  · split
    · exact (Steady.looks .read).bind fun _ =>
        (Steady.liftTotal (Exec.keeps_endCharge _ _)).bind fun _ => steady_set _ _
    · exact steady_set _ _
  · exact steady_set _ _

theorem steady_setOwned (id : PinId) : Steady sc C G fun _ => setOwned id := by
  refine (Steady.looks (looks_charge? id)).bind fun charge => ?_
  cases charge with
  | none => exact steady_set _ _
  | some v => exact (Steady.liftTotal (Exec.keeps_modifyCare _)).bind fun _ => steady_set _ _

theorem steady_setBorrowed (id : PinId) (place : Place) :
    Steady sc C G fun _ => setBorrowed id place :=
  (steady_clear id).bind fun _ => steady_set _ _

theorem steady_setNull (id : PinId) : Steady sc C G fun _ => setNull id :=
  (steady_clear id).bind fun _ => steady_set _ _

theorem steady_writeInt (id : PinId) (n : Int) :
    Steady sc C G fun _ => writeInt id n := by
  refine (steady_clear id).bind fun _ => (Steady.looks (looks_storage? id)).bind fun place => ?_
  cases place with
  | none => exact .pure _
  | some place =>
    exact (Steady.liftTotal (Exec.keeps_modifyMemory _)).bind fun _ => steady_setOwned id

/-- Taking room on the stack is the one step that changes the standing. -/
theorem steady_allocTemp (l : Layout) : Steady sc C .growing fun _ => allocTemp l := by
  intro a _
  refine .const (allocTemp_ensures (fun _ => Gait.growing.refl a) fun start stack h => ⟨rfl, rfl, ?_⟩)
  obtain ⟨hle, -, hcapacity⟩ := BumpStack.alloc?_le h
  exact (Machine.Grows.take (by omega) hcapacity).trans (.of_kept ⟨rfl, .of_meter rfl⟩)

theorem steady_withStack {x : ι → Run α} (hx : Steady sc C .growing x) :
    Steady sc C G fun i => withStack (x i) := by
  have hend : ∀ a b : Activation, a.Grows C.pace sc.seat b →
      G.rel a ⟨b.frame, b.machine.modifyInterpreter sc.seat fun i =>
        { i with stack := i.stack.rewind (a.machine.interpreter sc.seat).stack.used }⟩ :=
    fun a b hb => G.of_kept hb.mark hb.base hb.machine.kept_rewind
  intro a ha
  refine Settles.bind (P := fun i b => b = a ∧ i = a.machine.interpreter sc.seat)
    (.const (Ensures.run_interpreter_iff.mpr ⟨rfl, rfl⟩)) fun i b hb => ?_
  obtain ⟨rfl, rfl⟩ := hb
  refine Settles.bind (P := fun s c => c = b ∧ s = sc) (.const (Ensures.read_iff.mpr ⟨rfl, rfl⟩))
    fun s c hc => ?_
  obtain ⟨rfl, rfl⟩ := hc
  exact Settles.run_andFinally
    ((hx c ha).mono (fun _ b hb => hend c b hb) fun _ b hb => hend c b hb)

theorem steady_fillOwned (id : PinId) (missing : String) {init : ι → Place → Run Unit}
    (hi : ∀ place, Steady sc C G fun i => (init i) place) :
    Steady sc C G fun i => fillOwned id missing (init i) :=
  (steady_clear id).bind fun _ => (Steady.looks (looks_storage id _)).bind fun place =>
    (hi place).bind fun _ => (steady_setOwned id).bind fun _ => .pure _

theorem steady_callFailure (f : Function) (e : CallError) :
    Steady sc C G fun _ => callFailure f e := by
  refine (Steady.looks looks_interpreter).bind fun i => ?_
  refine Steady.bind (.modifyInterpreter (fun _ => rfl) fun _ => rfl) fun _ => ?_
  split
  · split <;> exact .pure _
  · exact .pure _

theorem steady_dropResult (result : Option Value) :
    Steady sc C G fun _ => liftTotal (result.forM Exec.drop) :=
  .liftTotal (Exec.keeps_dropResult result)

theorem steady_storeResult (id : PinId) (form : Form) (result : Option Value) :
    Steady sc C G fun _ => storeResult id form result := by
  refine (Steady.looks (looks_storage? id)).bind fun place => ?_
  cases place with
  | none => exact (steady_dropResult result).bind fun _ => .throw _
  | some place =>
    cases result with
    | none =>
      dsimp only
      split
      · exact steady_setOwned id
      · exact .throw _
    | some v =>
      dsimp only
      split
      · exact (steady_clear id).bind fun _ =>
          (Steady.liftTotal (Exec.keeps_relocate v place)).bind fun _ => steady_setOwned id
      · refine (Steady.liftTotal (Exec.keeps_watch fun m => m.watchResult_eq _)).bind fun _ => ?_
        cases v.place? with
        | some source => exact steady_setBorrowed id source
        | none => exact steady_setNull id

theorem steady_resultStorage (out : Option PinId) (form : Option Form) :
    Steady sc C G fun _ => resultStorage out form := by
  unfold resultStorage
  split
  · split
    · exact (steady_clear _).bind fun _ => .looks (looks_storage? _)
    · exact .pure _
  · exact .pure _

theorem steady_complete (n : ProgramNode) (completed : PinId) :
    Steady sc C G fun _ => complete n completed := by
  refine Steady.bind (.modifyFrame fun fr => ?_) fun _ => .looks (looks_target completed)
  unfold Frame.exitLoop
  split <;> exact ⟨rfl, rfl⟩

theorem steady_enterLoop (marker : LoopMarker) :
    Steady sc C G fun _ => modifyFrame (·.enterLoop marker) := by
  refine .modifyFrame fun fr => ?_
  unfold Frame.enterLoop
  split <;> exact ⟨rfl, rfl⟩

theorem steady_produce (t : TypeInfo) (ret : Option Place) {init : ι → Place → Run Unit}
    (hi : ∀ place, Steady sc C G fun i => (init i) place) :
    Steady sc C G fun i => produce t ret (init i) := by
  cases ret with
  | some place => exact (hi place).bind fun _ => .pure _
  | none =>
    refine (Steady.liftTotal (Exec.keeps_allocate _)).bind fun place =>
      (hi place).attempt.bind fun outcome => ?_
    cases outcome with
    | ok u => exact (Steady.liftTotal (Exec.keeps_adopt _ _ _ _)).bind fun _ => .pure _
    | error e => exact (Steady.liftTotal (Exec.keeps_free _)).bind fun _ => .throw e

theorem steady_bindArgument (index : Nat) (id : PinId) (v : Value) :
    Steady sc C G fun _ => bindArgument index id v := by
  refine (Steady.looks (looks_pinType id)).bind fun t => ?_
  split
  · exact .throw _
  · cases v.place? with
    | some place => exact steady_setBorrowed id place
    | none =>
      dsimp only
      split
      · exact steady_setNull id
      · exact .throw _

theorem steady_bindArguments (index : Nat) (ids : List PinId) (args : List Value) :
    Steady sc C G fun _ => bindArguments index ids args := by
  induction ids generalizing index args with
  | nil => exact .pure _
  | cons id ids ih =>
    cases args with
    | nil => exact .pure _
    | cons v vs => exact (steady_bindArgument index id v).bind fun _ => ih _ _

theorem steady_clearAll (count : Nat) : Steady sc C G fun _ => clearAll count := by
  induction count with
  | zero => exact .pure _
  | succ count ih => exact (steady_clear _).bind fun _ => ih

section Calls

variable (h : C.pact.Calls invoke)
include h

theorem steady_copyTemp (t : TypeInfo) (source : Place) :
    Steady sc C .growing fun i => copyTemp (invoke i) t source := by
  refine (steady_allocTemp t.layout).bind fun temp => ?_
  cases temp with
  | none => exact .throw _
  | some temp =>
    exact (Steady.lift _ (Invoke.keeps_copyAt h t temp source)).bind fun _ =>
      (Steady.liftTotal (Exec.keeps_modifyCare _)).bind fun _ => .pure _

theorem steady_fallback (id : PinId) :
    Steady sc C G fun i => fallback (invoke i) id := by
  have hconstructed : ∀ info t active,
      Steady sc C G fun i => fallback.constructed (invoke i) id info t active := by
    intro info t active
    unfold fallback.constructed
    cases active.filter (·.1 == t.id) with
    | some found => exact .pure _
    | none =>
      dsimp only
      split
      · exact steady_fillOwned id _ fun place => .lift _ (Invoke.keeps_defaultAt h t place)
      · split
        · exact (steady_setNull id).bind fun _ => .pure _
        · exact .throw _
  refine (Steady.looks (looks_pin id)).bind fun info =>
    (Steady.looks (looks_pinType id)).bind fun t => (Steady.looks .read).bind fun s => ?_
  cases info.default with
  | some j => exact steady_fillOwned id _ fun place => .lift _ (Invoke.keeps_decodeAt h t j place)
  | none =>
    refine (Steady.looks looks_interpreter).bind fun i => ?_
    cases s.this with
    | none => exact hconstructed info t i.world
    | some this =>
      dsimp only
      split
      · exact .pure _
      · exact hconstructed info t i.world

variable {pull : ι → Pull} (hpull : ∀ id, Steady sc C G fun i => (pull i) id)
include hpull

theorem steady_withArguments (n : ProgramNode) (f : Function) (pins : List (Param × PinId))
    {k : ι → List Value → Run α} (hk : ∀ args, Steady sc C .growing fun i => k i args) :
    Steady sc C .growing fun i => withArguments (invoke i) (pull i) n f pins (k i) := by
  induction pins generalizing k with
  | nil => exact hk []
  | cons first rest ih =>
    obtain ⟨p, id⟩ := first
    refine (hpull id).growing.bind fun source => (Steady.looks (looks_pinType id)).bind fun t => ?_
    cases source with
    | none =>
      dsimp only
      split
      · exact ih fun args => hk _
      · exact .throw _
    | some source =>
      dsimp only
      split
      · refine ((steady_copyTemp h t source).mapError _).bind fun temp => ?_
        exact (ih fun args => hk _).andFinally
          ((Exec.keeps_endCharge _ _).bind fun _ => Exec.keeps_free _)
      · exact ih fun args => hk _

theorem steady_callNode (n : ProgramNode) (f : Function) :
    Steady sc C G fun i => callNode (invoke i) (pull i) n f := by
  refine Steady.bind ?_ fun outcome => ?_
  · refine steady_withStack (steady_withArguments h hpull n f _ fun args => ?_)
    refine (steady_resultStorage _ _).bind fun buffer => ?_
    refine Steady.bind (.modifyInterpreter (fun _ => rfl) fun _ => rfl) fun _ => ?_
    exact .liftTotal (h f args buffer).attempt
  · cases outcome with
    | error e => exact (steady_callFailure f e).bind fun _ => .throw _
    | ok result =>
      dsimp only
      split
      · exact (steady_storeResult _ _ _).mapError _
      · exact steady_dropResult result

omit h in
theorem steady_pullTarget (n : ProgramNode) :
    Steady sc C G fun i => pullTarget (pull i) n := by
  refine (Steady.looks (looks_nth _ _)).bind fun id => (hpull id).bind fun place => ?_
  cases place with
  | some place => exact .pure _
  | none => exact .throw _

theorem steady_getField (n : ProgramNode) (offset : Nat) (type : Handle) :
    Steady sc C G fun i => getField (invoke i) (pull i) n offset type :=
  (steady_pullTarget hpull n).bind fun _ => (Steady.looks (looks_nth _ _)).bind fun out =>
    (Steady.looks .read).bind fun _ =>
      (steady_fillOwned out _ fun _ => .lift _ (Invoke.keeps_copyAt h _ _ _)).bind fun _ => .pure _

theorem steady_evaluate (n : ProgramNode) :
    Steady sc C G fun i => evaluate (invoke i) (pull i) n := by
  refine steady_tick.bind fun _ => (steady_noteNode _ _).bind fun _ => ?_
  cases n.op with
  | call f => exact steady_callNode h hpull n f
  | fieldGet offset type => exact steady_getField h hpull n offset type
  | _ => exact .throw _

theorem steady_pullOutput (output : PinId) :
    Steady sc C G fun i => pullOutput (invoke i) (pull i) output := by
  have hvalue : Steady sc C G fun _ =>
      frame >>= fun f => program >>= fun p => Pure.pure (f.value? p output) :=
    (Steady.looks looks_frame).bind fun _ => (Steady.looks looks_program).bind fun _ => .pure _
  refine (Steady.looks (looks_pin output)).bind fun p =>
    (Steady.looks (looks_node p.node)).bind fun n => ?_
  split
  · exact (Steady.looks (looks_nth _ _)).bind fun id => hpull id
  · dsimp only
    split
    · refine (Steady.looks looks_frame).bind fun f => ?_
      split
      · exact (steady_evaluate h hpull n).bind fun _ => hvalue
      · exact hvalue
    · refine (Steady.looks looks_frame).bind fun f => ?_
      split
      · exact (Steady.throw _).bind fun _ => hvalue
      · exact hvalue

theorem steady_supply (id : PinId) :
    Steady sc C G fun i => supply (invoke i) (pull i) id := by
  refine (Steady.looks (looks_pin id)).bind fun p => ?_
  cases p.source with
  | some output => exact steady_pullOutput h hpull output
  | none => exact steady_fallback h id

omit h hpull in
theorem steady_watchInput (id : PinId) (data : Option Place) :
    Steady sc C G fun _ => watchInput id data := by
  refine (Steady.looks .read).bind fun s => ?_
  split
  · exact .liftTotal (Exec.keeps_watch fun _ => rfl)
  · exact .pure _

theorem steady_pullStep (id : PinId) :
    Steady sc C G fun i => pullStep (invoke i) (pull i) id :=
  (steady_supply h hpull id).bind fun data => (steady_watchInput id data).bind fun _ => .pure _

omit hpull

theorem steady_pullWithin (count : Nat) (id : PinId) :
    Steady sc C G fun i => pullWithin (invoke i) count id := by
  induction count generalizing id with
  | zero => exact .throw _
  | succ count ih => exact steady_pullStep h ih id

theorem steady_pullInput (id : PinId) :
    Steady sc C G fun i => pullInput (invoke i) id :=
  (Steady.looks looks_program).bind fun _ => steady_pullWithin h _ id

theorem steady_pullAtom (id : PinId) (name : String) (prim : Prim) :
    Steady sc C G fun i => pullAtom (invoke i) id name prim := by
  refine (steady_pullInput h id).bind fun place => ?_
  cases place with
  | none => exact .throw _
  | some place =>
    exact (Steady.looks (looks_expectType id name)).bind fun _ =>
      (Steady.looks looks_memory).bind fun _ => .pure _

theorem steady_pullBool (id : PinId) :
    Steady sc C G fun i => pullBool (invoke i) id :=
  (steady_pullAtom h id _ _).bind fun _ => .pure _

theorem steady_pullInt (id : PinId) :
    Steady sc C G fun i => pullInt (invoke i) id := by
  refine (steady_pullAtom h id _ _).bind fun atom => ?_
  cases atom <;> exact .pure _

theorem steady_visitFor (n : ProgramNode) (via : Option PinId) :
    Steady sc C G fun i => visitFor (invoke i) n via := by
  refine (Steady.looks (looks_nth _ _)).bind fun break' =>
    (Steady.looks (looks_nth _ _)).bind fun index => (Steady.looks (looks_nth _ _)).bind fun body =>
      (Steady.looks (looks_nth _ _)).bind fun completed => ?_
  have hend : Steady sc C G fun i =>
      nth n.dataIn 1 >>= fun id => pullInt (invoke i) id >>= fun stop => readInt index >>= fun now =>
        if now ≥ stop then complete n completed else target body := by
    refine (Steady.looks (looks_nth _ _)).bind fun id => (steady_pullInt h id).bind fun stop =>
      (Steady.looks (looks_readInt index)).bind fun i => ?_
    split
    · exact steady_complete n completed
    · exact .looks (looks_target body)
  split
  · exact steady_complete n completed
  · cases via with
    | some pin =>
      exact (Steady.looks (looks_nth _ _)).bind fun id => (steady_pullInt h id).bind fun start =>
        (steady_writeInt index start).bind fun _ => (steady_enterLoop _).bind fun _ => hend
    | none =>
      exact (Steady.looks (looks_readInt index)).bind fun _ =>
        (steady_writeInt index _).bind fun _ => hend

theorem steady_visitWhile (n : ProgramNode) (via : Option PinId) :
    Steady sc C G fun i => visitWhile (invoke i) n via := by
  refine (Steady.looks (looks_nth _ _)).bind fun break' =>
    (Steady.looks (looks_nth _ _)).bind fun body =>
      (Steady.looks (looks_nth _ _)).bind fun completed => ?_
  have hend : Steady sc C G fun i =>
      nth n.dataIn 0 >>= fun id => pullBool (invoke i) id >>= fun condition =>
        if condition then target body else complete n completed := by
    refine (Steady.looks (looks_nth _ _)).bind fun id => (steady_pullBool h id).bind fun condition => ?_
    split
    · exact .looks (looks_target body)
    · exact steady_complete n completed
  split
  · exact steady_complete n completed
  · split
    · exact (steady_enterLoop _).bind fun _ => hend
    · exact hend

theorem steady_setField (n : ProgramNode) (offset : Nat) (type : Handle) :
    Steady sc C G fun i => setField (invoke i) n offset type := by
  refine (steady_pullTarget (steady_pullInput h) n).bind fun owner =>
    (Steady.looks (looks_nth _ _)).bind fun id => (steady_pullInput h id).bind fun source => ?_
  cases source with
  | none => exact .throw _
  | some source =>
    refine (Steady.looks .read).bind fun s => steady_withStack ?_
    refine ((steady_copyTemp h _ source).mapError _).bind fun temp => .liftTotal ?_
    exact (Exec.keeps_destroy _ _).bind fun _ => (Exec.keeps_modifyMemory _).bind fun _ =>
      (Exec.keeps_modifyCare _).bind fun _ => Exec.keeps_free _

theorem steady_handOver (t : TypeInfo) (source target : Place) :
    Steady sc C G fun i => handOver (invoke i) t source target := by
  refine (Steady.looks looks_frame).bind fun f => (Steady.looks looks_program).bind fun p => ?_
  cases f.owner? p source with
  | none => exact .lift _ (Invoke.keeps_copyAt h t target source)
  | some owner =>
    exact (Steady.looks (looks_charge? owner)).bind fun _ =>
      (Steady.liftTotal ((Exec.keeps_modifyMemory _).bind fun _ => Exec.keeps_modifyCare _)).bind
        fun _ => steady_set owner .empty

theorem steady_finish (n : ProgramNode) (ret : Option Place) :
    Steady sc C G fun i => finish (invoke i) n ret := by
  refine (Steady.looks looks_program).bind fun p => ?_
  cases p.result with
  | none => exact .pure _
  | some result =>
    obtain ⟨type, form⟩ := result
    refine (Steady.looks .read).bind fun s => (Steady.looks (looks_nth _ _)).bind fun id =>
      (steady_pullInput h id).bind fun value => ?_
    split
    · cases value with
      | none => exact .throw _
      | some source =>
        exact steady_produce _ ret fun place => (steady_handOver h _ source place).mapError _
    · cases value with
      | none =>
        dsimp only
        split
        · exact .pure _
        · exact .throw _
      | some place =>
        refine (Steady.looks looks_interpreter).bind fun i =>
          (Steady.looks looks_frame).bind fun f => ?_
        split
        · exact .throw _
        · exact .pure _

theorem steady_finishEmpty (ret : Option Place) :
    Steady sc C G fun i => finishEmpty (invoke i) ret := by
  refine (Steady.looks looks_program).bind fun p => ?_
  cases p.result with
  | none => exact .pure _
  | some result =>
    obtain ⟨type, form⟩ := result
    refine (Steady.looks .read).bind fun s => ?_
    dsimp only
    split
    · exact .pure _
    · split
      · exact .throw _
      · exact steady_produce _ ret fun place => .lift _ (Invoke.keeps_defaultAt h _ place)

theorem steady_statement (ret : Option Place) (arrival : Arrival) :
    Steady sc C G fun i => statement (invoke i) ret arrival := by
  have hgo : ∀ n : ProgramNode, Steady sc C G fun _ =>
      nth n.flowOut 0 >>= fun id => target id >>= fun next => Pure.pure (Outcome.next next) :=
    fun n => (Steady.looks (looks_nth _ _)).bind fun id =>
      (Steady.looks (looks_target id)).bind fun _ => .pure _
  cases arrival with
  | again marker =>
    refine (Steady.looks (looks_node _)).bind fun n => (steady_noteNode _ n).bind fun _ => ?_
    cases marker with
    | forLoop id => exact (steady_visitFor h n none).bind fun _ => .pure _
    | whileLoop id => exact (steady_visitWhile h n none).bind fun _ => .pure _
  | through id =>
    refine (Steady.looks (looks_pin id)).bind fun p => (Steady.looks (looks_node _)).bind fun n =>
      (steady_noteNode _ n).bind fun _ => ?_
    cases n.op with
    | ret => exact (steady_finish h n ret).bind fun _ => .pure _
    | call f => exact (steady_callNode h (steady_pullInput h) n f).bind fun _ => hgo n
    | fieldSet offset type => exact (steady_setField h n offset type).bind fun _ => hgo n
    | branch =>
      exact (Steady.looks (looks_nth _ _)).bind fun id => (steady_pullBool h id).bind fun _ =>
        (Steady.looks (looks_nth _ _)).bind fun id =>
          (Steady.looks (looks_target id)).bind fun _ => .pure _
    | forLoop => exact (steady_visitFor h n (some id)).bind fun _ => .pure _
    | whileLoop => exact (steady_visitWhile h n (some id)).bind fun _ => .pure _
    | reroute => exact hgo n
    | entry => exact .throw _
    | fieldGet offset type => exact .throw _
    | comment => exact .throw _

theorem steady_statements (ret : Option Place) (fuel : Nat) (next : Option PinId) :
    Steady sc C G fun i => statements (invoke i) ret fuel next := by
  induction fuel generalizing next with
  | zero => exact .throw _
  | succ fuel ih =>
    refine (Steady.looks looks_frame).bind fun f => ?_
    cases arrival? next f with
    | none => exact steady_finishEmpty h ret
    | some arrival =>
      refine steady_tick.bind fun _ => (steady_statement h ret arrival).bind fun outcome => ?_
      cases outcome with
      | done result => exact .pure _
      | next next => exact Steady.bind (.modifyFrame fun _ => ⟨rfl, rfl⟩) fun _ => ih next

theorem steady_body (args : List Value) (ret : Option Place) :
    Steady sc C G fun i => body (invoke i) args ret := by
  refine (Steady.looks looks_program).bind fun p => (Steady.looks (looks_node _)).bind fun entry =>
    (steady_bindArguments _ _ _).bind fun _ => ?_
  split
  · refine steady_tick.bind fun _ => ?_
    cases p.returnNode with
    | none => exact .throw _
    | some id => exact (Steady.looks (looks_node id)).bind fun n => steady_finish h n ret
  · cases entry.flowOut.head? with
    | some output =>
      exact (Steady.looks (looks_target output)).bind fun next => steady_statements h ret patience next
    | none => exact steady_statements h ret patience none

end Calls

end Run

namespace Program

open Exec

variable {invoke : ι → Invoke} {p : Program} {seat : Seat} {args : List Value} {w : Context}
  {m m' : Machine}

/-- What taking a frame does: it fails and keeps the standing, or takes stack for the slots at least
and remembers how much was in use. -/
theorem takeFrame_ensures {r : Pace} {Q : Frame → Machine → Prop} {E : ScriptError → Machine → Prop}
    (hfail : ∀ e m', m.Kept r m' → E e m')
    (htake : ∀ f m', m.Grows r seat m' → f.mark = (m.interpreter seat).stack.used →
      (m.interpreter seat).stack.used + 24 * p.pins.size ≤ (m'.interpreter seat).stack.used →
      (m'.interpreter seat).stack.used ≤ (m.interpreter seat).stack.capacity → Q f m') :
    Ensures (p.takeFrame seat) w m Q E := by
  simp only [takeFrame, Ensures.bind_iff, Ensures.get_iff, Frame.take?]
  cases hslots : (m.interpreter seat).stack.alloc?
      ⟨Frame.slotLayout.size * p.pins.size, Frame.slotLayout.align⟩ with
  | none =>
    exact hfail _ _ ⟨m.standing_modifyInterpreter seat rfl, .modifyInterpreter (r.refl _)⟩
  | some taken =>
    obtain ⟨start, s'⟩ := taken
    obtain ⟨hs, -, hc⟩ := BumpStack.alloc?_le hslots
    dsimp only [Frame.slotLayout] at hs ⊢
    have hused := Nat.le_trans (Nat.le_add_right _ _) hs
    cases hstorage : s'.alloc? p.storage with
    | none =>
      refine hfail _ _ ⟨m.standing_modifyInterpreter seat ?_, .modifyInterpreter ?_⟩
      · simp only [Interpreter.stance, BumpStack.rewind, Nat.min_eq_left hused]
      · simp only [Interpreter.meter, BumpStack.rewind, hc]
        exact r.refl _
    | some taken =>
      obtain ⟨base, s''⟩ := taken
      obtain ⟨hs', htop, hc'⟩ := BumpStack.alloc?_le hstorage
      have hstack : ∀ m' : Machine, (m'.modifyInterpreter seat fun i =>
          { i with stack := s'' }).interpreter seat = { m'.interpreter seat with stack := s'' } :=
        fun m' => m'.interpreter_modifyInterpreter seat _
      refine htake _ _ ?_ rfl ?_ ?_
      · exact (Machine.Grows.take (by omega) (hc'.trans hc)).trans (.of_kept ⟨rfl, .of_meter rfl⟩)
      · exact (hstack m).symm ▸ (by dsimp only; omega)
      · exact (hstack m).symm ▸ (by dsimp only; omega)

theorem kept_giveFrame {r : Pace} {f : Frame} (h : m.Grows r seat m')
    (hf : f.mark = (m.interpreter seat).stack.used) : m.Kept r (giveFrame seat f m') := by
  unfold giveFrame
  rw [hf]
  exact h.kept_rewind.trans ⟨rfl, .of_meter rfl⟩

/-- Closing a frame empties its slots, which is steady wherever it happens, and gives it back. -/
theorem exists_closeFrame (r : Pace) (sc : Scope) (a : Activation) :
    ∃ b, a.Grows r sc.seat b ∧ closeFrame sc a = giveFrame sc.seat b.frame b.machine := by
  have hclear := (Run.steady_clearAll (C := .free r sc.seat) (G := .growing) sc.program.pins.size).ensures (a := a)
    trivial
  unfold closeFrame
  cases hr : Run.clearAll sc.program.pins.size sc a with
  | ok _ b => exact ⟨b, hclear.ok hr, rfl⟩
  | error _ b => exact ⟨b, hclear.error hr, rfl⟩

theorem kept_closeFrame {r : Pace} {a : Activation} (h : m.Grows r sc.seat a.machine)
    (ha : a.frame.mark = (m.interpreter sc.seat).stack.used) : m.Kept r (closeFrame sc a) := by
  obtain ⟨b, hb, hclose⟩ := exists_closeFrame r sc a
  rw [hclose]
  exact kept_giveFrame (h.trans hb.machine) (hb.mark.trans ha)

theorem paced_closeFrame (r : Pace) (sc : Scope) (a : Activation) :
    a.machine.Paced r (closeFrame sc a) := by
  obtain ⟨b, hb, hclose⟩ := exists_closeFrame r sc a
  rw [hclose]
  exact hb.machine.paced.trans (.trans (.modifyInterpreter (r.refl _)) (.of_meter rfl))

/-- Where a call has taken its frame, its conduct is to hold. -/
def Begins (p : Program) (C : Conduct ι seat) (w : Context) (m : Machine) : Prop :=
  ∀ m', m.Grows C.pace seat m' →
    (m.interpreter seat).stack.used + 24 * p.pins.size ≤ (m'.interpreter seat).stack.used →
    (m'.interpreter seat).stack.used ≤ (m.interpreter seat).stack.capacity → C.holds w m'

theorem settles_runFramed {C : Conduct ι seat} (h : C.pact.Calls invoke) (hm : p.Begins C w m)
    (args : List Value) (ret : Option Place) :
    Settles C.along (fun i => p.runFramed (invoke i) seat args ret) w m
      (fun _ m' => m.Kept C.pace m') fun _ m' => m.Kept C.pace m' := by
  unfold runFramed
  by_cases harity : args.length ≠ p.arity
  · simp only [if_pos harity]
    exact .const (Machine.Kept.refl m)
  simp only [if_neg harity]
  refine Settles.bind (P := fun f m' => m.Grows C.pace seat m' ∧
      f.mark = (m.interpreter seat).stack.used ∧ C.holds w m')
    (.const (takeFrame_ensures (fun _ _ he => he) fun _ m' hg hf hslots htop =>
      ⟨hg, hf, hm m' hg hslots htop⟩)) fun f m' hf => ?_
  obtain ⟨hg, hf, hholds⟩ := hf
  have hsteady : Steady (p.scope seat args w) C .growing fun i => Run.body (invoke i) args ret :=
    Run.steady_body h args ret
  have hclose : ∀ a : Activation, Activation.Grows C.pace seat ⟨f, m'⟩ a →
      m.Kept C.pace (closeFrame (p.scope seat args w) a) := fun a ha =>
    kept_closeFrame (hg.trans ha.machine) (ha.mark.trans hf)
  refine (hsteady ⟨f, m'⟩ hholds).of_congr (fun i j hij => ?_) fun i hi => ?_
  · simp only [runIn, hij]
  · refine runIn_iff.mpr (hi.mono (fun v a ha => ?_) fun _ a ha => hclose a ha)
    rw [Machine.watchResult_eq]
    exact ⟨(hclose a ha).standing, (hclose a ha).paced⟩

theorem keeps_recordFailure {P : Pact ι} (p : Program) (seat : Seat) (nested : Bool)
    (e : ScriptError) : P.Keeps fun _ => p.recordFailure seat nested e := by
  unfold recordFailure
  refine .ite ((keeps_trace _ _).bind fun _ => fun _ m _ => .const ?_) (keeps_trace _ _)
  exact ⟨m.standing_modifyInterpreter seat rfl, .modifyInterpreter (P.pace.refl _)⟩

theorem interpreter_enter (p : Program) (seat : Seat) (args : List Value) (m : Machine)
    (other : Seat) :
    (p.enter seat args m).interpreter other =
      (m.modifyInterpreter seat fun i =>
        { i with
          steps := if i.depth > 0 then i.steps else 0
          visits := if i.depth > 0 then i.visits else 0
          depth := i.depth + 1
          world := (p.worldOf args).getD i.world }).interpreter other := rfl

theorem standing_leave (h : m'.standing = (p.enter seat args m).standing) :
    (leave seat m.current (m.interpreter seat).world m').standing = m.standing := by
  have hs : ∀ other, (m'.interpreter other).stance =
      ((p.enter seat args m).interpreter other).stance :=
    fun other => congrFun (congrArg Standing.stance h) other
  have hleave : ∀ other, (leave seat m.current (m.interpreter seat).world m').interpreter other =
      (m'.modifyInterpreter seat fun i =>
        { i with depth := i.depth - 1, world := (m.interpreter seat).world }).interpreter other :=
    fun other => rfl
  simp only [Machine.standing, Standing.mk.injEq]
  refine ⟨rfl, ?_⟩
  funext other
  by_cases ho : other = seat
  · have hseat := hs seat
    rw [interpreter_enter, Machine.interpreter_modifyInterpreter] at hseat
    simp only [Interpreter.stance, Stance.mk.injEq] at hseat
    rw [ho, hleave, Machine.interpreter_modifyInterpreter]
    simp only [Interpreter.stance, hseat.1, hseat.2.1, Nat.add_sub_cancel]
  · rw [hleave, Machine.interpreter_modifyInterpreter_of_ne _ ho, hs other, interpreter_enter,
      Machine.interpreter_modifyInterpreter_of_ne _ ho]

theorem paced_leave {r : Pace} (seat : Seat) (current : Option Seat)
    (world : Option (TypeId × Place)) (m : Machine) : m.Paced r (leave seat current world m) :=
  .trans (.modifyInterpreter (r.refl _)) (.of_meter rfl)

/-- A call of a program keeps the standing, however it ends, and lets the meters go on from where it
has entered. -/
theorem settles_execute {C : Conduct ι seat} (h : C.pact.Calls invoke)
    (hm : p.Begins C w (p.enter seat args m)) (ret : Option Place) :
    Settles C.along (fun i => p.execute (invoke i) seat args ret) w m
      (fun _ m' => m'.standing = m.standing ∧ (p.enter seat args m).Paced C.pace m')
      fun _ m' => m'.standing = m.standing ∧ (p.enter seat args m).Paced C.pace m' := by
  have hleave : ∀ m', (p.enter seat args m).Kept C.pace m' →
      (leave seat m.current (m.interpreter seat).world m').standing = m.standing ∧
        (p.enter seat args m).Paced C.pace (leave seat m.current (m.interpreter seat).world m') :=
    fun m' hm' => ⟨standing_leave hm'.standing, hm'.paced.trans (paced_leave _ _ _ m')⟩
  refine (settles_runFramed h hm args ret).of_congr (fun i j hij => ?_) fun i hi => ?_
  · rw [execute_eq, execute_eq, hij]
  · refine execute_iff.mpr (hi.mono (fun _ m' hm' => hleave m' hm') fun e m' hm' => ?_)
    have hrecord := (keeps_recordFailure (P := (Conduct.free C.pace seat).pact) p seat
      ((m.interpreter seat).depth > 0) (e.within p.script p.name)).ensures (w := w) (m := m') trivial
    exact hrecord.mono (fun _ m'' hm'' => hleave m'' (hm'.trans hm'')) fun _ _ _ => trivial

end Program

end Flowscript
