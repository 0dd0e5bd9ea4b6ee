import Flowscript.Proofs.Run.SteadyCalls

/-! # The budget of steps

Every step counts on the meter of the interpreter it is taken on, and counts as a visit if the
budget allows it. Calls that are nested share the meter of the outermost one, so that the visits of
all of them together stay within the budget, and no loop of statements is longer than what is left
of it. All of this is for budgets below the number at which the count of steps stops growing.
-/
namespace Flowscript

namespace Meter

variable {t t' t'' : Meter}

def Counted (t : Meter) : Prop := t.visits = min t.steps t.settings.maxSteps

@[simp] theorem settings_tick (t : Meter) : t.tick.settings = t.settings := by
  unfold tick
  dsimp only
  split <;> rfl

@[simp] theorem capacity_tick (t : Meter) : t.tick.capacity = t.capacity := by
  unfold tick
  dsimp only
  split <;> rfl

@[simp] theorem steps_tick (t : Meter) : t.tick.steps = min (t.steps + 1) 0xffffffff := by
  unfold tick
  dsimp only
  split <;> rfl

theorem visits_tick_of_le (h : min (t.steps + 1) 0xffffffff ≤ t.settings.maxSteps) :
    t.tick.visits = t.visits + 1 := by
  unfold tick
  dsimp only
  rw [if_pos h]

theorem visits_tick_of_lt (h : t.settings.maxSteps < min (t.steps + 1) 0xffffffff) :
    t.tick.visits = t.visits := by
  unfold tick
  dsimp only
  rw [if_neg (Nat.not_le.mpr h)]

theorem Counted.tick (h : t.Counted) (hmax : t.settings.maxSteps < 0xffffffff) :
    t.tick.Counted := by
  unfold Counted Meter.tick at *
  dsimp only
  split <;> dsimp only <;> omega

structure Advances (t t' : Meter) : Prop where
  settings : t'.settings = t.settings
  capacity : t'.capacity = t.capacity
  /-- The steps do not become fewer. -/
  steps : min t.steps 0xffffffff ≤ t'.steps
  visits : t.visits ≤ t'.visits
  counted : t.settings.maxSteps < 0xffffffff → t.Counted → t'.Counted

theorem Advances.refl (t : Meter) : t.Advances t :=
  ⟨rfl, rfl, Nat.min_le_left _ _, Nat.le_refl _, fun _ h => h⟩

theorem Advances.trans (h : t.Advances t') (h' : t'.Advances t'') : t.Advances t'' :=
  ⟨h'.settings.trans h.settings, h'.capacity.trans h.capacity,
    (Nat.le_min.mpr ⟨h.steps, Nat.min_le_right _ _⟩).trans h'.steps, h.visits.trans h'.visits,
    fun hmax ht => h'.counted (h.settings.symm ▸ hmax) (h.counted hmax ht)⟩

theorem advances_tick (t : Meter) : t.Advances t.tick := by
  refine ⟨t.settings_tick, t.capacity_tick, ?_, ?_, fun hmax h => h.tick hmax⟩
  · rw [steps_tick]
    omega
  by_cases h : min (t.steps + 1) 0xffffffff ≤ t.settings.maxSteps
  · rw [visits_tick_of_le h]
    exact Nat.le_succ _
  · rw [visits_tick_of_lt (Nat.not_le.mp h)]

end Meter

/-- Meters only go on by counting steps. -/
def Pace.counting : Pace where
  rel := Meter.Advances
  refl := .refl
  trans := .trans
  tick := Meter.advances_tick

def Machine.Running (seat : Seat) (m : Machine) : Prop :=
  m.current = some seat ∧ 0 < (m.interpreter seat).depth

theorem Machine.Grows.running {r : Pace} {seat : Seat} {m m' : Machine} (h : m.Grows r seat m')
    (hm : m.Running seat) : m'.Running seat := ⟨h.current.trans hm.1, h.depth.symm ▸ hm.2⟩

/-- One computation of a call that is under way. -/
def Conduct.running (seat : Seat) : Conduct Unit seat :=
  .whenever .counting (fun m => m.Running seat) fun hm h => h.running hm

namespace Program

variable {p : Program} {seat : Seat} {args : List Value} {m : Machine}

theorem running_enter (p : Program) (seat : Seat) (args : List Value) (m : Machine) :
    (p.enter seat args m).Running seat := by
  refine ⟨rfl, ?_⟩
  rw [interpreter_enter, Machine.interpreter_modifyInterpreter]
  exact Nat.succ_pos _

/-- A nested call goes on with the meter of the call around it. -/
theorem paced_enter {r : Pace} (h : 0 < (m.interpreter seat).depth) :
    m.Paced r (p.enter seat args m) := by
  intro other
  unfold Machine.meter
  rw [interpreter_enter]
  by_cases ho : other = seat
  · rw [ho, Machine.interpreter_modifyInterpreter]
    simp only [Interpreter.meter, if_pos h]
    exact r.refl _
  · rw [Machine.interpreter_modifyInterpreter_of_ne _ ho]
    exact r.refl _

theorem meter_enter (h : (m.interpreter seat).depth = 0) :
    (p.enter seat args m).meter seat = { m.meter seat with steps := 0, visits := 0 } := by
  unfold Machine.meter
  rw [interpreter_enter, Machine.interpreter_modifyInterpreter]
  simp only [Interpreter.meter, h, gt_iff_lt, Nat.lt_irrefl, if_false]

end Program

open Exec

section Nested

variable {ι : Type} {l : Filter ι} [l.NeBot] {r : Pace} {seat : Seat} {w : Context} {m : Machine}

/-- A script function that is called while a call is under way keeps the standing and the pace, if
the program behind it does from where it enters. -/
theorem settles_script {invoke : Program → ι → Invoke} {number : Nat} {args : List Value}
    {ret : Option Place} (hm : m.Running seat)
    (h : ∀ p, w.Offers p → Settles l (fun i => p.execute (invoke p i) seat args ret) w m
      (fun _ m' => m'.standing = m.standing ∧ (p.enter seat args m).Paced r m')
      fun _ m' => m'.standing = m.standing ∧ (p.enter seat args m).Paced r m') :
    Settles l (fun i => do
        let p ← readyProgram number
        let seat := (← get).seat
        mapError CallError.script (p.execute (invoke p i) seat args ret)) w m
      (fun _ m' => m.Kept r m') fun _ m' => m.Kept r m' := by
  refine Settles.bind (P := fun p m' => m' = m ∧ w.Offers p)
    (.const (readyProgram_ensures (fun p hp => ⟨rfl, hp⟩) fun _ => .refl m)) fun p m' hp => ?_
  obtain ⟨rfl, hp⟩ := hp
  refine Settles.bind (P := fun s m'' => m'' = m' ∧ s = m') (.const ⟨rfl, rfl⟩) fun s m'' hs => ?_
  obtain ⟨rfl, rfl⟩ := hs
  have hseat : s.seat = seat := by rw [Machine.seat, hm.1]; rfl
  rw [hseat]
  have hkept : ∀ m', m'.standing = s.standing ∧ (p.enter seat args s).Paced r m' → s.Kept r m' :=
    fun m' h => ⟨h.1, (Program.paced_enter hm.2).trans h.2⟩
  exact Settles.exec_mapError ((h p hp).mono (fun _ m' => hkept m') fun _ m' => hkept m')

end Nested

/-- While a call is under way, functions called at any depth keep the standing and count on the
meter. -/
theorem calls_invokeUnder {native : List Call → Native} (hn : ∀ calls, (native calls).Discreet)
    (seat : Seat) (depth : Nat) (calls : List Call) :
    (Conduct.running seat).pact.Calls fun _ => invokeUnder native depth calls := by
  induction depth generalizing calls with
  | zero => exact fun _ _ _ => .throw _
  | succ depth ih =>
    intro f args ret
    have hnative : (Conduct.running seat).pact.Keeps fun _ =>
        native calls (invokeUnder native depth calls) f args ret :=
      hn calls _ _ (ih calls) f args ret
    dsimp only [invokeUnder]
    cases f.check (args.map Value.argument) with
    | error e => exact .throw e
    | ok u =>
      cases f.body with
      | script number =>
        intro w m hm
        have hrun := fun p : Program => Program.settles_execute (w := w) (ih (⟨p, args⟩ :: calls))
          (fun m' hm' _ _ => hm'.running (p.running_enter seat args m)) ret
        exact settles_script hm fun p _ => hrun p
      | native op shape destructor => exact hnative
      | aggregate op whole => exact hnative
      | host host => exact hnative

/-- A call that is not nested makes a visit of every step it tries while there is budget left,
together with all calls nested in it and however it ends. -/
theorem Program.visits_execute {native : List Call → Native}
    (hn : ∀ calls, (native calls).Discreet) (depth : Nat) (calls : List Call) (p : Program)
    {seat : Seat} {m : Machine} (hidle : (m.interpreter seat).depth = 0)
    (hmax : (m.interpreter seat).settings.maxSteps < 0xffffffff) (args : List Value)
    (ret : Option Place) (w : Context) :
    Ensures (p.execute (invokeUnder native depth calls) seat args ret) w m
      (fun _ m' => (m'.interpreter seat).visits =
        min (m'.interpreter seat).steps (m.interpreter seat).settings.maxSteps)
      fun _ m' => (m'.interpreter seat).visits =
        min (m'.interpreter seat).steps (m.interpreter seat).settings.maxSteps := by
  have hrun := (settles_execute (w := w) (calls_invokeUnder hn seat depth calls)
    (fun m' hm' _ _ => hm'.running (p.running_enter seat args m)) ret).ensures
  have hcounted : ∀ m', (p.enter seat args m).Paced .counting m' → (m'.interpreter seat).visits =
      min (m'.interpreter seat).steps (m.interpreter seat).settings.maxSteps := by
    intro m' hm'
    have hadvances : ((p.enter seat args m).meter seat).Advances (m'.meter seat) := hm' seat
    rw [meter_enter hidle] at hadvances
    have hcounted : (m'.meter seat).Counted := hadvances.counted hmax (Nat.zero_min _).symm
    rw [Meter.Counted, hadvances.settings] at hcounted
    exact hcounted
  exact hrun.mono (fun _ m' h => hcounted m' h.2) fun _ m' h => hcounted m' h.2

namespace Run

variable {sc : Scope} {a : Activation} {invoke : Invoke}

theorem tick_of_budget (sc : Scope) {a : Activation}
    (hmax : (a.machine.interpreter sc.seat).settings.maxSteps < 0xffffffff) :
    Ensures tick sc a
      (fun _ b => (a.machine.interpreter sc.seat).steps <
          (a.machine.interpreter sc.seat).settings.maxSteps ∧
        (b.machine.interpreter sc.seat).steps = (a.machine.interpreter sc.seat).steps + 1 ∧
        (b.machine.interpreter sc.seat).visits = (a.machine.interpreter sc.seat).visits + 1)
      fun e b => (a.machine.interpreter sc.seat).settings.maxSteps ≤
          (a.machine.interpreter sc.seat).steps ∧
        (b.machine.interpreter sc.seat).visits = (a.machine.interpreter sc.seat).visits ∧
        e.kind = .executionTimeOut := by
  refine tick_ensures rfl fun f _ hmeter => ?_
  have hsteps := (congrArg Meter.steps hmeter).trans (Meter.steps_tick _)
  have hvisits := congrArg Meter.visits hmeter
  simp only [Interpreter.meter] at hsteps hvisits
  simp only [Machine.interpreter_modifyInterpreter]
  refine ⟨fun hle => ⟨by omega, by omega, ?_⟩, fun hlt e he => ⟨by omega, ?_, he⟩⟩
  · exact hvisits.trans (Meter.visits_tick_of_le hle)
  · exact hvisits.trans (Meter.visits_tick_of_lt hlt)

/-- A loop of statements is no longer than what is left of the budget: with more fuel than that, the
fuel does not matter. -/
theorem agree_statements_of_budget (h : (Conduct.running sc.seat).pact.Calls fun _ => invoke)
    (ret : Option Place) {fuel fuel' : Nat} (next : Option PinId)
    (ha : a.machine.Running sc.seat)
    (hmax : (a.machine.interpreter sc.seat).settings.maxSteps < 0xffffffff)
    (hfuel : (a.machine.interpreter sc.seat).settings.maxSteps -
      (a.machine.interpreter sc.seat).steps < fuel)
    (hfuel' : (a.machine.interpreter sc.seat).settings.maxSteps -
      (a.machine.interpreter sc.seat).steps < fuel') :
    Agree (statements invoke ret fuel next) (statements invoke ret fuel' next) sc a
      (fun _ _ => True) fun _ _ => True := by
  induction fuel generalizing fuel' next a with
  | zero => cases hfuel
  | succ fuel ih =>
    obtain ⟨fuel', rfl⟩ : ∃ k, fuel' = k + 1 := Nat.exists_eq_succ_of_ne_zero (by omega)
    refine Agree.bind (P := fun f b => b = a ∧ f = a.frame)
      ⟨rfl, Ensures.run_frame_iff.mpr ⟨rfl, rfl⟩⟩ fun f b hb => ?_
    obtain ⟨rfl, rfl⟩ := hb
    cases arrival? next b.frame with
    | none =>
      exact ⟨rfl, ((steady_finishEmpty (G := .growing) h ret).ensures ha).mono (fun _ _ _ => trivial)
        fun _ _ _ => trivial⟩
    | some arrival =>
      -- The step that is allowed uses up budget, and what follows gives nothing of it back.
      have htick := ((steady_tick (C := .running sc.seat) (G := .growing)).ensures ha).and (tick_of_budget sc hmax)
      refine Agree.bind ⟨rfl, htick.mono (fun _ _ hc => hc) fun _ _ _ => trivial⟩ fun _ c hc => ?_
      have hstatement := (steady_statement (G := .growing) h ret arrival).ensures (hc.1.machine.running ha)
      refine Agree.bind ⟨rfl, hstatement.mono (fun _ _ hd => hd) fun _ _ _ => trivial⟩
        fun outcome d hd => ?_
      cases outcome with
      | done result => exact ⟨rfl, trivial⟩
      | next next =>
        have hgrows := (hc.1.trans hd).machine
        have hrunning := hgrows.running ha
        have hsettings : (d.machine.interpreter sc.seat).settings =
          (b.machine.interpreter sc.seat).settings := (hgrows.paced sc.seat).settings
        have hsteps : min (c.machine.interpreter sc.seat).steps 0xffffffff ≤
          (d.machine.interpreter sc.seat).steps := (hd.machine.paced sc.seat).steps
        refine Agree.bind (P := fun _ e => e.machine = d.machine) ⟨rfl, rfl⟩ fun _ e he => ?_
        rw [← he] at hrunning hsettings hsteps
        obtain ⟨hlt, hstep, -⟩ := hc.2
        refine ih next hrunning (hsettings ▸ hmax) ?_ ?_
        · rw [hsettings]
          omega
        · rw [hsettings]
          omega

end Run

end Flowscript
