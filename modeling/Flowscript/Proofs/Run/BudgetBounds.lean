import Flowscript.Proofs.Run.SafeRuns
import Flowscript.Proofs.Run.StackRoom

/-! # What a budget of steps is good for

A budget bounds the visits of a call and lets every call end. That holds of every budget but the
greatest one: the count of steps stops growing there and never exceeds it, so that a function which
goes around two wires is never stopped.
-/
namespace Flowscript

/-- A function that goes around two wires. -/
def Graph.spinning : Graph :=
  let g : Graph := { name := "Spin" }
  let g := (EditOp.addNode .entry).apply {} g
  let g := (EditOp.addNode (.reroute .flow)).apply {} g
  let g := (EditOp.addNode (.reroute .flow)).apply {} g
  let g := (EditOp.addLink ⟨1⟩ ⟨2⟩).apply {} g
  let g := (EditOp.addLink ⟨3⟩ ⟨4⟩).apply {} g
  (EditOp.addLink ⟨5⟩ ⟨2⟩).apply {} g

theorem Graph.edited_spinning : spinning.Edited := by
  unfold spinning
  refine .edit (.edit (.edit (.edit (.edit (.edit (.new "Spin" {}) _ _ ?_) _ _ ?_) _ _ ?_) _ _ ?_)
    _ _ ?_) _ _ ?_ <;>
    · unfold Graph.Numbered
      decide

namespace Program

/-- The program of the function: an entry and two nodes that lead to each other. -/
def spun : Program :=
  let wire (node : Nat) (target : Option PinId) : Option ProgramPin :=
    some { node := ⟨node⟩, type := none, form := .value, default := none, target, storage := 0 }
  let turn (id flowIn flowOut : Nat) : Option ProgramNode :=
    some { id := ⟨id⟩, label := "Reroute", op := .reroute, pure := false, flowIn := [⟨flowIn⟩]
           flowOut := [⟨flowOut⟩] }
  { name := "Spin"
    script := none
    nodes := #[some { id := ⟨1⟩, label := "Entry", op := .entry, pure := false, flowOut := [⟨1⟩] },
      turn 2 2 3, turn 3 4 5]
    pins := #[wire 1 (some ⟨2⟩), wire 2 none, wire 2 (some ⟨4⟩), wire 3 none, wire 3 (some ⟨2⟩)]
    entry := ⟨1⟩
    returnNode := none
    result := none
    pure := false
    params := 0
    hasWorld := false
    thisType := none
    storage := .empty }

theorem compile_spinning : compile Graph.spinning {} {} = .ok spun := rfl

theorem take?_spun : Frame.take? spun (.ofCapacity 65536) = (some 120, ⟨65536, 120, 120⟩) := rfl

theorem statement_spun (invoke : Invoke) {next : PinId} (h : next = ⟨2⟩ ∨ next = ⟨4⟩)
    (a : Activation) :
    ∃ next' : PinId, (next' = ⟨2⟩ ∨ next' = ⟨4⟩) ∧
      Run.statement invoke none (.through next) (spun.scope .own [] {}) a =
        .ok (.next (some next')) a := by
  rcases h with rfl | rfl
  · exact ⟨⟨4⟩, .inr rfl, rfl⟩
  · exact ⟨⟨2⟩, .inl rfl, rfl⟩

/-- With the greatest budget no step is refused: there are as many visits as there is fuel. -/
theorem statements_spun (invoke : Invoke) (fuel : Nat) {next : PinId}
    (h : next = ⟨2⟩ ∨ next = ⟨4⟩) {a : Activation}
    (hmax : 0xffffffff ≤ (a.machine.interpreter .own).settings.maxSteps) :
    Ensures (Run.statements invoke none fuel (some next)) (spun.scope .own [] {}) a
      (fun _ _ => False) fun _ b => (b.machine.interpreter .own).visits =
        (a.machine.interpreter .own).visits + fuel := by
  induction fuel generalizing next a with
  | zero => rfl
  | succ fuel ih =>
    have hseat : (spun.scope .own [] {}).seat = .own := rfl
    refine Ensures.bind_iff.mpr (Ensures.run_frame_iff.mpr (Ensures.bind_iff.mpr ?_))
    refine Run.tick_ensures rfl fun f _ hmeter => ⟨fun hle => ?_, fun hlt => ?_⟩
    · rw [hseat] at hmeter hle ⊢
      obtain ⟨next', hnext', hrun⟩ := statement_spun invoke h
        ⟨a.frame, a.machine.modifyInterpreter .own f⟩
      have hinterpreter := a.machine.interpreter_modifyInterpreter .own f
      have hsettings : (f (a.machine.interpreter .own)).settings.maxSteps = _ :=
        congrArg (fun t => t.settings.maxSteps) (hmeter.trans rfl)
      have hvisits : (f (a.machine.interpreter .own)).visits = _ :=
        (congrArg Meter.visits hmeter).trans (Meter.visits_tick_of_le hle)
      refine Ensures.bind_iff.mpr (.of_ok hrun (Ensures.bind_iff.mpr ?_))
      refine (ih hnext' (a := ⟨_, _⟩) ?_).mono (fun _ _ h => h) fun _ b hb => ?_
      · rw [hinterpreter, hsettings, Meter.settings_tick]
        exact hmax
      · rw [hb, hinterpreter, hvisits]
        simp only [Interpreter.meter]
        omega
    · exact absurd hlt (by rw [hseat]; omega)

/-- With the greatest budget, a call of the function visits nodes for as long as it is followed. -/
theorem visits_execute_spun (invoke : Invoke) {m : Machine} {base : Nat} {stack : BumpStack}
    (htake : Frame.take? spun (m.interpreter .own).stack = (some base, stack))
    (hmax : 0xffffffff ≤ (m.interpreter .own).settings.maxSteps) :
    Ensures (spun.execute invoke .own [] none) {} m (fun _ _ => False)
      fun _ m' => Run.patience ≤ (m'.interpreter .own).visits := by
  have henter := (spun.interpreter_enter .own [] m .own).trans
    (m.interpreter_modifyInterpreter .own _)
  have hframe : Ensures (spun.takeFrame .own) {} (spun.enter .own [] m)
      (fun _ m' => 0xffffffff ≤ (m'.interpreter .own).settings.maxSteps) fun _ _ => False := by
    simp only [takeFrame, Ensures.bind_iff, Ensures.get_iff, henter, htake]
    exact hmax
  refine execute_iff.mpr ?_
  unfold runFramed
  rw [if_neg (by decide)]
  refine Ensures.bind_iff.mpr (hframe.mono (fun f m' hm' => runIn_iff.mpr ?_) fun _ _ h => h.elim)
  change Ensures (Run.statements invoke none Run.patience (some ⟨2⟩)) (spun.scope .own [] {})
    ⟨f, m'⟩ _ _
  refine (statements_spun invoke Run.patience (.inl rfl) hm').mono (fun _ _ h => h) fun e a ha => ?_
  -- Closing the frame, recording the failure and leaving make no visits undone.
  have hrecord := (keeps_recordFailure (P := (Conduct.free .counting .own).pact) spun .own
    ((m.interpreter .own).depth > 0) (e.within spun.script spun.name)).ensures (w := {})
    (m := closeFrame (spun.scope .own [] {}) a) trivial
  refine hrecord.mono (fun _ m'' h => ?_) fun _ _ _ => trivial
  have hpaced := ((paced_closeFrame .counting (spun.scope .own [] {}) a).trans h.paced).trans
    (paced_leave .own m.current (m.interpreter .own).world m'')
  calc Run.patience
    _ ≤ (a.machine.interpreter .own).visits := ha ▸ Nat.le_add_left _ _
    _ ≤ _ := (hpaced .own).visits

-- Elaboration is not to follow a run of the program.
attribute [irreducible] spun

def Made (p : Program) : Prop := ∃ g c s, Graph.Edited g ∧ compile g c s = .ok p

theorem Made.roomy {p : Program} (h : p.Made) : p.Roomy := by
  obtain ⟨g, c, s, hg, hp⟩ := h
  exact roomy_of_compile hg hp

end Program

/-- What a budget of steps is for: it bounds the visits of a call, and every call ends. -/
structure Settings.Bounds (s : Settings) : Prop where
  /-- Of the steps that a call and all calls nested in it try, as many are visits as the budget has,
  however the call ends. -/
  visits : ∀ native : List Call → Native, (∀ calls, (native calls).Discreet) →
    ∀ (depth : Nat) (p : Program), p.Made → ∀ seat args ret w (m : Machine),
      (m.interpreter seat).settings = s → (m.interpreter seat).depth = 0 →
      Ensures (p.execute (invokeUnder native depth [⟨p, args⟩]) seat args ret) w m
        (fun _ m' => (m'.interpreter seat).visits = min (m'.interpreter seat).steps s.maxSteps)
        fun _ m' => (m'.interpreter seat).visits = min (m'.interpreter seat).steps s.maxSteps
  /-- A step that is not a visit fails because the time is out. -/
  steps : ∀ (sc : Scope) (a : Activation), (a.machine.interpreter sc.seat).settings = s →
    Ensures Run.tick sc a
      (fun _ b => (a.machine.interpreter sc.seat).steps < s.maxSteps ∧
        (b.machine.interpreter sc.seat).steps = (a.machine.interpreter sc.seat).steps + 1 ∧
        (b.machine.interpreter sc.seat).visits = (a.machine.interpreter sc.seat).visits + 1)
      fun e b => s.maxSteps ≤ (a.machine.interpreter sc.seat).steps ∧
        (b.machine.interpreter sc.seat).visits = (a.machine.interpreter sc.seat).visits ∧
        e.kind = .executionTimeOut
  /-- A loop of statements ends by itself within what is left of the budget. -/
  loops : ∀ native : List Call → Native, (∀ calls, (native calls).Discreet) →
    ∀ (depth : Nat) (calls : List Call) (sc : Scope) (a : Activation),
      (a.machine.interpreter sc.seat).settings = s → a.machine.Running sc.seat →
      ∀ ret next fuel, s.maxSteps - (a.machine.interpreter sc.seat).steps < fuel →
        Run.statements (invokeUnder native depth calls) ret fuel next sc a =
          Run.statements (invokeUnder native depth calls) ret Run.patience next sc a
  /-- Between two steps, inputs are pulled no deeper than there are pins. -/
  pulls : ∀ (g : Graph) (c : Catalogue) (t : Setting) (p : Program), g.Edited →
    Program.compile g c t = .ok p → ∀ sc : Scope, sc.program = p → c.Keeps sc.context.catalogue →
      ∀ (invoke : Invoke) (id : PinId), p.IsData id → ∀ depth > p.pins.size,
        ∀ a : Activation, a.frame.LoopsIn p →
          Run.pullWithin invoke depth id sc a = Run.pullInput invoke id sc a
  /-- Calls nest no deeper than there is room for, if native functions return. -/
  nested : ∀ (native : List Call → Native) (w : Context), Native.Returns native w →
    (∀ q, w.Offers q → q.Made) → ∀ p : Program, p.Made → ∀ seat args ret (m : Machine),
      (m.interpreter seat).settings = s → ∃ outcome, ∃ enough, ∀ depth ≥ enough,
        p.execute (invokeUnder native depth [⟨p, args⟩]) seat args ret w m = outcome

/-- Every budget that fits in 32 bits does what it is for, except the greatest. -/
theorem Settings.bounds_iff {n : Nat} (hn : n < 0x100000000) :
    (∀ s : Settings, s.validate = .ok s → s.maxSteps = n → s.Bounds) ↔ n < 0xffffffff := by
  constructor
  · intro h
    by_contra hlt
    have hge := Nat.not_lt.mp hlt
    have hvalid : ({ maxSteps := n } : Settings).validate = .ok { maxSteps := n } := by
      simp only [validate]
      rw [if_neg (by decide), if_neg (by omega), if_neg (by decide)]
    have hbound := (h _ hvalid rfl).visits (fun _ => .builtin) (fun _ => Native.discreet_builtin) 0
      .spun ⟨_, _, _, Graph.edited_spinning, Program.compile_spinning⟩ .own [] none {}
      { own := .new { maxSteps := n } } rfl rfl
    have hrun := Program.visits_execute_spun (invokeUnder (fun _ => .builtin) 0 [⟨.spun, []⟩])
      (m := { own := .new { maxSteps := n } }) Program.take?_spun hge
    refine Ensures.not_false ((hbound.and hrun).mono (fun _ m' hm' => ?_) fun _ m' hm' => ?_)
    · exact hm'.2
    · have hle := hm'.1.trans_le (Nat.min_le_right _ _)
      have hpatience : n < Run.patience := hn.trans (by decide)
      exact absurd (hm'.2.trans hle) (Nat.not_le.mpr hpatience)
  · rintro hlt s - rfl
    refine ⟨fun native hnative depth p _ seat args ret w m hs hidle => ?_, fun sc a hs => ?_,
      fun native hnative depth calls sc a hs ha ret next fuel hfuel => ?_,
      fun g c t p hg hp sc hsc hkeeps invoke id hid depth hdepth a ha => ?_,
      fun native w hreturns hw p _ seat args ret m _ => ?_⟩
    · subst hs
      exact Program.visits_execute hnative depth _ p hidle hlt args ret w
    · subst hs
      exact Run.tick_of_budget sc hlt
    · subst hs
      have hpatience : (a.machine.interpreter sc.seat).settings.maxSteps < Run.patience :=
        hn.trans (by decide)
      exact (Run.agree_statements_of_budget (calls_invokeUnder hnative sc.seat depth calls) ret next
        ha hlt hfuel ((Nat.sub_le _ _).trans_lt hpatience)).1
    · subst hsc
      have hformed := (Program.wellFormed_of_compile hg hp).of_keeps hkeeps
      have hheight := Program.WellFormed.height_le sc.program id
      exact (Run.safe_pullWithin (fun _ _ _ _ => rfl) hformed hid (hheight.trans_lt hdepth)
        (Nat.lt_succ_of_le hheight) a ha).1
    · exact Program.execute_settled hreturns (fun q hq => (hw q hq).roomy) _ p seat args ret m

/-- The budget that is the default does what it is for, of the function that goes around too; the
greatest does not. -/
theorem Settings.bounds_default :
    (({} : Settings).Bounds ∧
      Ensures (Program.spun.execute (invokeUnder (fun _ => Native.builtin) 8 [⟨.spun, []⟩]) .own []
          none) {} {}
        (fun _ m' => (m'.interpreter .own).visits = min (m'.interpreter .own).steps 1000000)
        (fun _ m' => (m'.interpreter .own).visits = min (m'.interpreter .own).steps 1000000) ∧
      ∃ outcome, ∃ enough, ∀ depth ≥ enough,
        Program.spun.execute (invokeUnder (fun _ => Native.simple) depth [⟨.spun, []⟩]) .own [] none
          {} {} = outcome) ∧
    ¬ ∀ s : Settings, s.validate = .ok s → s.maxSteps = 0xffffffff → s.Bounds := by
  have hmade : Program.spun.Made := ⟨_, _, _, Graph.edited_spinning, Program.compile_spinning⟩
  have hbounds : ({} : Settings).Bounds := (bounds_iff (by decide)).mpr (by decide) {} rfl rfl
  have hnone : ∀ q, ({} : Context).Offers q → q.Made := by
    rintro q ⟨number, body, hbody, -⟩
    exact absurd hbody (by simp)
  refine ⟨⟨hbounds, ?_, ?_⟩, fun h => absurd ((bounds_iff (by decide)).mp h) (by decide)⟩
  · exact hbounds.visits (fun _ => .builtin) (fun _ => Native.discreet_builtin) 8 .spun hmade .own
      [] none {} {} rfl rfl
  · exact hbounds.nested (fun _ => .simple) {} (Native.returns_simple {}) hnone .spun hmade .own []
      none {} rfl

end Flowscript
