import Mathlib.Logic.Relation
import Flowscript.Proofs.Run.ErrorLocations

/-! # Chains of nested calls

An execution of a program makes the calls that its tale tells of, and a call of a script's function comes
to an execution again. If the innermost of a chain of executions fails, all around it fail: with the same
kind and message if a budget was used up, and otherwise because a function call failed.
-/
namespace Flowscript

open Exec Run

/-- A call of a program, inside of others, on a machine. -/
structure Execution where
  /-- How deep calls may nest in it. -/
  depth : Nat
  /-- The calls under way, this one the first. -/
  calls : List Call
  program : Program
  seat : Seat
  args : List Value
  ret : Option Place
  machine : Machine

namespace Execution

variable (native : List Call → Native) (w : Context)

def invoke (E : Execution) : Invoke := invokeUnder native E.depth E.calls

def result (E : Execution) : EStateM.Result ScriptError Machine (Option Value) :=
  E.program.execute (E.invoke native) E.seat E.args E.ret w E.machine

def scope (E : Execution) : Scope := E.program.scope E.seat E.args w

/-- The told run of its body, which begins with an empty tale in a frame of its own. -/
def told (E : Execution) (frame : Frame) (m : Machine) : EStateM.Result ScriptError Telling (Option Value) :=
  Told.body (E.invoke native) E.args E.ret (E.scope w) ⟨⟨frame, m⟩, {}⟩

def tale (E : Execution) : Tale :=
  if E.args.length ≠ E.program.arity then {}
  else
    match E.program.takeFrame E.seat w (E.program.enter E.seat E.args E.machine) with
    | .error _ _ => {}
    | .ok frame m =>
      match E.told native w frame m with
      | .ok _ t => t.tale
      | .error _ t => t.tale

/-- What a call that one of its nodes makes comes to, if that is a call of a script's function. -/
def inside (E : Execution) (c : NodeCall) : Option Execution :=
  match E.depth, c.function.check (c.args.map Value.argument), c.function.body with
  | depth + 1, .ok (), .script number =>
    match readyProgram number w c.machine with
    | .ok q _ =>
      some ⟨depth, ⟨q, c.args⟩ :: E.calls, q, c.machine.seat, c.args, c.ret, c.machine⟩
    | .error _ _ => none
  | _, _, _ => none

/-- The executions that the nodes of an execution make, the latest first. -/
def nested (E : Execution) : List Execution := (E.tale native w).calls.filterMap (E.inside w)

/-- An execution is made by a Call node of another. -/
def Nests (E E' : Execution) : Prop := E' ∈ E.nested native w

variable {native w} {E E' : Execution}

theorem outcome_of_inside {c : NodeCall} (h : E.inside w c = some E') :
    c.outcome (E.invoke native) w = (match E'.result native w with
      | .ok v m => .ok v m
      | .error e m => .error (.script e) m) ∧
    E'.seat = c.machine.seat ∧ E'.machine = c.machine := by
  unfold inside at h
  split at h
  · rename_i depth number hdepth hcheck hbody
    have hready : Ensures (readyProgram number) w c.machine (fun _ m => m = c.machine) fun _ _ => True :=
      readyProgram_ensures (fun _ _ => rfl) fun _ => trivial
    cases hr : readyProgram number w c.machine with
    | error e m =>
      rw [hr] at h
      cases h
    | ok q m =>
      rw [hr] at h
      have hm := hready.ok hr
      subst hm
      cases h
      refine ⟨?_, rfl, rfl⟩
      simp only [NodeCall.outcome, invoke, result, hdepth, invokeUnder, hcheck, hbody, bind, ReaderT.bind,
        EStateM.bind, hr]
      show Exec.mapError CallError.script _ w c.machine = _
      unfold Exec.mapError
      cases (Program.execute _ q c.machine.seat c.args c.ret w c.machine) <;> rfl
  · cases h

/-- How a failed execution is seen by the one around it. -/
def Passes (e' e : ScriptError) : Prop :=
  if e'.kind.isBudget then e.kind = e'.kind ∧ e.message = e'.message else e.kind = .functionCallFailed

theorem Passes.trans {e e' e'' : ScriptError} (h : Passes e'' e') (h' : Passes e' e) : Passes e'' e := by
  unfold Passes at h h' ⊢
  split at h
  · rename_i hkind
    rw [h.1, if_pos hkind, h.2] at h'
    rw [if_pos hkind]
    exact h'
  · rename_i hkind
    rw [h] at h'
    rw [if_neg hkind]
    exact h'

theorem passes_blame (f : Function) (ce : CallError) (e : ScriptError) (node : NodeId)
    (script : Option String) (function : String) :
    Passes e (((ScriptError.blame f ce (some e)).atNode node).within script function) := by
  unfold Passes ScriptError.blame
  dsimp only
  split
  · exact ⟨rfl, rfl⟩
  · rfl

/-- Where something is told of an execution, it has run in its frame, and failed if the run did. -/
theorem exists_told {c : NodeCall} (hc : c ∈ (E.tale native w).calls) :
    ∃ frame m, E.program.takeFrame E.seat w (E.program.enter E.seat E.args E.machine) = .ok frame m ∧
      ((∃ r t, E.told native w frame m = .ok r t ∧ c ∈ t.tale.calls) ∨
        ∃ e t, E.told native w frame m = .error e t ∧ c ∈ t.tale.calls ∧
          ∃ m', E.result native w = .error (e.within E.program.script E.program.name) m') := by
  unfold tale at hc
  split at hc
  · cases hc
  rename_i harity
  cases htake : E.program.takeFrame E.seat w (E.program.enter E.seat E.args E.machine) with
  | error e m =>
    rw [htake] at hc
    cases hc
  | ok frame m =>
    rw [htake] at hc
    dsimp only at hc
    refine ⟨frame, m, rfl, ?_⟩
    cases htold : E.told native w frame m with
    | ok r t =>
      rw [htold] at hc
      exact .inl ⟨r, t, rfl, hc⟩
    | error e t =>
      rw [htold] at hc
      refine .inr ⟨e, t, rfl, hc, ?_⟩
      have hframed : E.program.runFramed (E.invoke native) E.seat E.args E.ret w
          (E.program.enter E.seat E.args E.machine) = .error e (Program.closeFrame (E.scope w) t.act) := by
        have htells : Told.Retells (Told.body (E.invoke native) E.args E.ret)
            (Run.body (E.invoke native) E.args E.ret) := Told.retells_body _ _
        have hbody := htells.eval {} (E.scope w) ⟨frame, m⟩
        unfold told at htold
        rw [htold] at hbody
        unfold Program.runFramed
        rw [if_neg harity, bind_of_ok htake, Program.runIn,
          show E.program.scope E.seat E.args w = E.scope w from rfl, hbody]
      unfold result
      rw [Program.execute_eq, hframed]
      dsimp only
      split
      exact ⟨_, rfl⟩

/-- What the tale of a run says is so: if it has succeeded, so have all calls, and if it has failed, the
tale explains the error. -/
theorem told_reports (hnative : ∀ calls, (native calls).Aside) {frame : Frame} {m : Machine}
    (htake : E.program.takeFrame E.seat w (E.program.enter E.seat E.args E.machine) = .ok frame m) :
    Leaves (Told.body (E.invoke native) E.args E.ret) (E.scope w) ⟨⟨frame, m⟩, {}⟩
      (fun _ _ tale => tale.Calm (Outlook.Resumes w (E.program.enter E.seat E.args E.machine).outlook)
        (E.invoke native) (E.scope w))
      fun e _ tale => tale.Explains (Outlook.Resumes w (E.program.enter E.seat E.args E.machine).outlook)
        (E.invoke native) (E.scope w) e := by
  have hinvoke : (E.invoke native).Resumes w := Invoke.resumes_under hnative E.depth E.calls
  obtain ⟨o, ho⟩ : ∃ o, (E.program.enter E.seat E.args E.machine).outlook = o := ⟨_, rfl⟩
  rw [ho]
  have hframe := (E.program.takeFrame_frank E.seat (O := Outlook.Resumes w o) (w := w) (ho ▸ .refl w _)).ok htake
  have hreports : Reports (Outlook.Resumes w o) (E.invoke native) (E.scope w)
      (Told.body (E.invoke native) E.args E.ret) fun _ => True :=
    Told.reports_body ⟨hinvoke o, fun m hm => hm.clear E.seat⟩ E.args E.ret
  exact (hreports ⟨⟨frame, m⟩, {}⟩ hframe fun c hc => nomatch hc).mono (fun _ _ h => h.2.1) fun _ _ h => h.2

theorem fails_of_nests (hnative : ∀ calls, (native calls).Aside) (h : Nests native w E E')
    {e' : ScriptError} {m' : Machine} (he : E'.result native w = .error e' m') :
    ∃ e m, E.result native w = .error e m ∧ Passes e' e := by
  obtain ⟨c, hc, hinside⟩ := List.mem_filterMap.mp h
  obtain ⟨houtcome, hseat, hmachine⟩ := outcome_of_inside hinside
  rw [he] at houtcome
  -- A tale in which all calls have succeeded does not tell of this one.
  have hcalm : ∀ {O : Outlook → Prop} {tale : Tale}, tale.Calm O (E.invoke native) (E.scope w) →
      c ∉ tale.calls := by
    intro O tale hcalm hmem
    obtain ⟨-, r, m, hok⟩ := hcalm c hmem
    exact absurd (houtcome.symm.trans hok) nofun
  obtain ⟨frame, m, htake, ⟨r, t, htold, hmem⟩ | ⟨e, t, htold, hmem, m₁, hresult⟩⟩ := exists_told hc
  · exact absurd hmem (hcalm ((told_reports hnative htake).ok htold))
  refine ⟨_, m₁, hresult, ?_⟩
  rcases (told_reports hnative htake).error htold with
    ⟨hcalm', -⟩ | ⟨c₀, ce, m₀, ⟨hproper, hfails, before, hcalls, hbefore⟩, rfl⟩
  · exact absurd hmem (hcalm hcalm')
  rw [hcalls] at hmem
  rcases List.mem_cons.mp hmem with rfl | hmem
  · obtain ⟨rfl, rfl⟩ := EStateM.Result.error.inj (hfails.symm.trans houtcome)
    -- The call was made inside of this execution, so its failure is recorded where it is looked for.
    have hplace : E'.seat = E.seat ∧ 0 < E'.machine.outlook.depth E.seat := by
      have hcurrent := hproper.outlook.current
      have hdepth := congrFun hproper.outlook.depth E.seat
      rw [Program.outlook_enter] at hcurrent hdepth
      dsimp only at hdepth
      rw [Function.update_self] at hdepth
      rw [hseat, hmachine, hdepth]
      exact ⟨congrArg (Option.getD · Seat.spare) hcurrent, Nat.succ_pos _⟩
    have hrecorded := ((Program.execute_reports (Invoke.resumes_under hnative E'.depth E'.calls) E'.program
      E'.seat E'.args E'.ret E'.machine).error he).2.2
    rw [hplace.1] at hrecorded
    have hfailure : m₀.outlook.failure (E.scope w).seat = some e' := hrecorded hplace.2
    rw [hfailure]
    exact passes_blame _ _ _ _ _ _
  · exact absurd hmem (hcalm hbefore)

/-- If the innermost of a chain of nested executions fails, all fail: with the same kind and message if it
has used up a budget, and otherwise because a function call has failed. -/
theorem fails_of_chain (hnative : ∀ calls, (native calls).Aside)
    (h : Relation.TransGen (Nests native w) E E') (e' : ScriptError) (m' : Machine)
    (he : E'.result native w = .error e' m') :
    ∃ e m, E.result native w = .error e m ∧
      if e'.kind.isBudget then e.kind = e'.kind ∧ e.message = e'.message
      else e.kind = .functionCallFailed := by
  induction h using Relation.TransGen.head_induction_on with
  | single h => exact fails_of_nests hnative h he
  | head h _ ih =>
    obtain ⟨e, m, hfails, hpasses⟩ := ih
    obtain ⟨e₁, m₁, hfails₁, hpasses₁⟩ := fails_of_nests hnative h hfails
    exact ⟨e₁, m₁, hfails₁, Passes.trans hpasses hpasses₁⟩

def middle : Function :=
  { name := "Middle", params := [], result := none, pure := false, body := .script 1 }

def chained : Context where
  bodies := #[⟨"S::Inner", .ready Program.returningProgram⟩,
    ⟨"S::Middle", .ready (Program.nestingProgram "Middle" inner)⟩]

/-- An execution that calls a function that calls another, on a machine whose budget is two steps. -/
def outermost : Execution :=
  ⟨2, [], Program.nestingProgram "Outer" middle, .own, [], none, { own := .new { maxSteps := 2 } }⟩

/-- The budget is used up in the innermost call, and the outermost says so. -/
theorem outermost_fails_of_chain :
    (∀ calls, ((fun _ => Native.builtin : List Call → Native) calls).Aside) ∧
      ∃ E₁ E₂ e' m', Nests (fun _ => Native.builtin) chained outermost E₁ ∧
        Nests (fun _ => Native.builtin) chained E₁ E₂ ∧
        E₂.result (fun _ => Native.builtin) chained = .error e' m' ∧
        e'.location = { script := some "S", function := some "Inner" } ∧ e'.kind = .executionTimeOut ∧
        ∃ e m, outermost.result (fun _ => Native.builtin) chained = .error e m ∧
          e.kind = .executionTimeOut ∧ e.message = e'.message := by
  have hnative : ∀ calls, ((fun _ => Native.builtin : List Call → Native) calls).Aside :=
    fun _ => Native.aside_builtin
  have hrun : ((outermost.nested (fun _ => Native.builtin) chained).head?.bind fun E₁ =>
      (E₁.nested (fun _ => Native.builtin) chained).head?.bind fun E₂ =>
        Program.failure (E₂.result (fun _ => Native.builtin) chained)) =
      some (.executionTimeOut, { script := some "S", function := some "Inner" }) := by
    decide +kernel
  obtain ⟨E₁, hfirst, hrun⟩ := Option.bind_eq_some_iff.mp hrun
  obtain ⟨E₂, hsecond, hrun⟩ := Option.bind_eq_some_iff.mp hrun
  have hnests : Nests (fun _ => Native.builtin) chained outermost E₁ := List.mem_of_mem_head? hfirst
  have hnests' : Nests (fun _ => Native.builtin) chained E₁ E₂ := List.mem_of_mem_head? hsecond
  cases hr : E₂.result (fun _ => Native.builtin) chained with
  | ok v m' =>
    rw [hr] at hrun
    cases hrun
  | error e' m' =>
    rw [hr] at hrun
    obtain ⟨hkind, hlocation⟩ := Prod.mk.inj (Option.some.inj hrun)
    obtain ⟨e, m, hfails, hpasses⟩ := fails_of_chain hnative (.tail (.single hnests) hnests') e' m' hr
    rw [hkind, if_pos (by rfl)] at hpasses
    exact ⟨hnative, E₁, E₂, e', m', hnests, hnests', hr, hlocation, hkind, e, m, hfails, hpasses⟩

end Execution

end Flowscript
