import Flowscript.Proofs.Loading.LoaderRemovals
import Flowscript.Proofs.Loading.ScriptTypes

/-! # The lives of bodies

A function keeps its number for ever, whether its type is registered or not. Its body is settled when it is
loaded, and unloaded when the loader loads anew, unloads or is dropped; so what a call of it comes to depends
only on whether it is one of those that the last load declared.
-/
namespace Flowscript

def ScriptBody.answer (body : ScriptBody) (invoke : Invoke) (args : List Value) (ret : Option Place) :
    Exec CallError (Option Value) :=
  match body.state with
  | .pending => throw (.pending body.name)
  | .failed why => throw (.failedToCompile body.name why)
  | .unloaded => throw (.unloaded body.name)
  | .ready p => do
    let seat := (← get).seat
    Exec.mapError .script (p.execute invoke seat args ret)

namespace Context

def Calls (k : Context) (n : Nat)
    (x : Invoke → List Value → Option Place → Exec CallError (Option Value)) : Prop :=
  ∀ f : Function, f.body = .script n → ∀ depth args ret, f.check (args.map Value.argument) = .ok () →
    ∀ m, invokeWithin (depth + 1) f args ret k m = x (invokeWithin depth) args ret k m

/-- Calls run a program on the interpreter at work. -/
def Runs (k : Context) (n : Nat) (p : Program) : Prop :=
  k.Calls n fun invoke args ret => do
    let seat := (← get).seat
    Exec.mapError .script (p.execute invoke seat args ret)

/-- Calls fail for a reason that was found when the body was compiled, and do nothing. -/
def Fails (k : Context) (n : Nat) (why : String) : Prop :=
  ∃ name, k.Calls n fun _ _ _ => throw (.failedToCompile name why)

/-- Calls fail because the body was unloaded, and do nothing. -/
def Unloaded (k : Context) (n : Nat) : Prop := ∃ name, k.Calls n fun _ _ _ => throw (.unloaded name)

variable {k : Context} {n : Nat} {name : String}

theorem calls_of_body {body : ScriptBody} (hn : k.bodies[n]? = some body) : k.Calls n body.answer := by
  intro f hf depth args ret hcheck m
  have hcall : invokeWithin (depth + 1) f args ret = runScript (invokeWithin depth) n args ret := by
    rw [invokeWithin]
    dsimp only
    rw [hcheck]
    dsimp only
    rw [Function.run, hf]
  rw [hcall]
  generalize invokeWithin depth = invoke
  unfold runScript readyProgram
  simp only [bind, ReaderT.bind, EStateM.bind, read, readThe, MonadReaderOf.read, ReaderT.read, pure,
    EStateM.pure]
  rw [hn]
  obtain ⟨name, state⟩ := body
  cases state <;> rfl

theorem unloaded_of_body (hn : k.bodies[n]? = some ⟨name, .unloaded⟩) : k.Unloaded n := ⟨name, calls_of_body hn⟩

theorem fails_of_body {why : String} (hn : k.bodies[n]? = some ⟨name, .failed why⟩) : k.Fails n why :=
  ⟨name, calls_of_body hn⟩

theorem runs_of_body {p : Program} (hn : k.bodies[n]? = some ⟨name, .ready p⟩) : k.Runs n p := calls_of_body hn

end Context

namespace Loader

theorem getElem?_unloadBodies (bodies : Array ScriptBody) (numbers : List Nat) (n : Nat) :
    (unloadBodies bodies numbers)[n]? = if n ∈ numbers then
      (bodies[n]?).map fun body => { body with state := .unloaded } else bodies[n]? := by
  induction numbers generalizing bodies with
  | nil => rfl
  | cons number numbers ih =>
    rw [show unloadBodies bodies (number :: numbers) =
      unloadBodies (bodies.modify number fun b => { b with state := .unloaded }) numbers from rfl, ih,
      Array.getElem?_modify]
    by_cases hn : number = n
    · rw [if_pos hn, if_pos (show n ∈ number :: numbers from hn ▸ List.mem_cons_self)]
      cases bodies[n]? <;> simp
    · rw [if_neg hn]
      exact if_congr (by simp [Ne.symm hn]) rfl rfl

theorem size_unloadBodies (bodies : Array ScriptBody) (numbers : List Nat) :
    (unloadBodies bodies numbers).size = bodies.size :=
  (unloadBodies_spec bodies (fun n _ => Nat.zero_le n)).1

/-- What becomes of the body of a declared function that has a number. -/
inductive Outcome (c : Catalogue) (p : Piece) (k : Context) (n : Nat) : Prop where
  | runs {program : Program} (sound : p.graph.errors c (some p.script.name) = [])
    (compiled : Program.assemble p.graph c (p.setting (c.info p.handle).id) = .ok program)
    (runs : k.Runs n program)
  | fails {errors : List ScriptError}
    (refused : Program.compile p.graph c (p.setting (c.info p.handle).id) = .error (.errors errors))
    (fails : k.Fails n (reason errors))

theorem settledOf_ne_pending (c : Catalogue) (b : PendingBody) : settledOf c b ≠ some .pending := by
  unfold settledOf
  split <;> exact nofun

theorem outcome_of_settled {c : Catalogue} {p : Piece} {number : Nat} {state : BodyState} {k : Context}
    {name : String} (hstate : settledOf c (p.pending c number) = some state)
    (hbody : k.bodies[number]? = some ⟨name, state⟩) : Outcome c p k number := by
  unfold settledOf at hstate
  cases hcompile : Program.compile p.graph c (p.setting (c.info p.handle).id) with
  | ok program =>
    obtain ⟨-, herrors, hassemble⟩ := Program.compile_eq_ok_iff.mp hcompile
    rw [show Program.compile (p.pending c number).graph c (p.pending c number).setting = _ from hcompile] at hstate
    cases hstate
    exact .runs herrors hassemble (Context.runs_of_body hbody)
  | error failure =>
    rw [show Program.compile (p.pending c number).graph c (p.pending c number).setting = _ from hcompile] at hstate
    cases failure with
    | errors errors =>
      cases hstate
      exact .fails hcompile (Context.fails_of_body hbody)
    | overrun | overflow => cases hstate

section Bodies

variable {w : Workspace} {scripts : List Script} {worldType : String} {es : List ScriptError} {hs : List Handle}
  {c : Catalogue} {k : Context}

theorem Builds.old_body (h : Builds worldType scripts w es hs c k) {n : Nat} (hn : n < w.context.bodies.size) :
    (built worldType scripts w).2.workspace.context.bodies[n]? = w.context.bodies[n]? := by
  rw [h.context]
  dsimp only
  rw [getElem?_settleAll_of_notMem, h.furnished.bodies, Array.getElem?_append_left hn]
  rw [Builds.numbers_allPending, List.mem_range'_1]
  omega

theorem Builds.new_body (h : Builds worldType scripts w es hs c k)
    (hthrough : (built worldType scripts w).1.through = true) {i : Nat} {p : Piece}
    (hp : (allPieces w.catalogue scripts hs)[i]? = some p) :
    ∃ state, settledOf k.catalogue (p.pending k.catalogue (w.context.bodies.size + i)) = some state ∧
      (built worldType scripts w).2.workspace.context.bodies[w.context.bodies.size + i]? =
        some ⟨p.body.name, state⟩ := by
  have hid : ∀ j, (k.catalogue.info j).id = (c.info j).id := h.furnished.outfits.id_eq
  have hmem : p.pending k.catalogue (w.context.bodies.size + i) ∈ allPending w scripts hs c := by
    have hzip : (p, w.context.bodies.size + i) ∈
        (allPieces w.catalogue scripts hs).zipIdx w.context.bodies.size := by
      refine List.mem_of_getElem? (i := i) ?_
      rw [List.getElem?_zipIdx, hp]
      rfl
    have hpending := List.mem_map_of_mem (f := fun q : Piece × Nat => q.1.pending c q.2) hzip
    rwa [← Piece.pending_congr hid] at hpending
  have hsettled := h.through_iff.mp hthrough
  obtain ⟨state, hstate⟩ := Option.isSome_iff_exists.mp (hsettled _ hmem)
  have hnodup : ((allPending w scripts hs c).map (·.number)).Nodup := by
    rw [Builds.numbers_allPending]
    exact List.nodup_range'
  have hnew : k.bodies[w.context.bodies.size + i]? = some p.body := by
    rw [h.furnished.bodies, Array.getElem?_append_right (Nat.le_add_right _ _), Nat.add_sub_cancel_left]
    simp [hp]
  refine ⟨state, hstate, ?_⟩
  rw [h.context]
  refine (getElem?_settleAll_of_mem hnodup hsettled hmem).trans ?_
  rw [show (p.pending k.catalogue (w.context.bodies.size + i)).number = w.context.bodies.size + i from rfl,
    hnew, hstate]
  rfl

end Bodies

theorem pieces_sole {worldType : String} {script : Script} {w : Workspace} {es : List ScriptError}
    {handles : List Handle} {c : Catalogue} {k : Context} (hw : w.catalogue.contains script.type = false)
    (h : Builds worldType [script] w es handles c k) : ∃ j, c.handle? script.type = some j ∧
      allPieces w.catalogue [script] handles = (firstNamed [] script.functions).map (⟨script, j, ·⟩) := by
  have hschedule := schedule_single hw
  have hdeclares := h.declares
  rw [hschedule] at hdeclares
  unfold allPieces
  rw [hschedule]
  cases hdeclares with
  | @cons _ _ _ _ _ _ _ _ j _ first rest =>
    cases rest
    refine ⟨j, first.handle?_type, ?_⟩
    change (firstNamed [] script.functions).map _ ++ [] = _
    exact List.append_nil _

theorem pieces_single {worldType : String} {script : Script} {g : Graph} {w : Workspace} {es : List ScriptError}
    {handles : List Handle} {c : Catalogue} {k : Context} (hw : w.catalogue.contains script.type = false)
    (hfunctions : script.functions = [g])
    (h : Builds worldType [script] w es handles c k) :
    ∃ h, allPieces w.catalogue [script] handles = [⟨script, h, g⟩] := by
  obtain ⟨j, -, hpieces⟩ := pieces_sole hw h
  rw [hfunctions] at hpieces
  exact ⟨j, hpieces⟩

end Loader

namespace Shared

open Loader

variable {s s' : Shared} {first : Nat}

def bodies (s : Shared) : Array ScriptBody := s.workspace.context.bodies

structure Idle (first : Nat) (s : Shared) : Prop where
  bodies : ∀ n ∈ s.loader.bodies, first ≤ n
  idle : ∀ n, first ≤ n → n < s.bodies.size → n ∉ s.loader.bodies →
    ∃ name, s.bodies[n]? = some ⟨name, .unloaded⟩

theorem Idle.unloaded (h : Idle first s) {n : Nat} (hle : first ≤ n) (hlt : n < s.bodies.size) :
    ∃ name, (s.loader.unload s.workspace).2.context.bodies[n]? = some ⟨name, .unloaded⟩ := by
  rw [unload_context]
  dsimp only
  rw [getElem?_unloadBodies]
  split
  · rw [show s.workspace.context.bodies[n]? = s.bodies[n]? from rfl, Array.getElem?_eq_getElem hlt]
    exact ⟨_, rfl⟩
  · next hnot => exact h.idle n hle hlt hnot

theorem size_unload (s : Shared) : (s.loader.unload s.workspace).2.context.bodies.size = s.bodies.size := by
  rw [unload_context]
  exact size_unloadBodies _ _

/-- What a load declared: the functions come from the scripts, no pending one is left, and they are added to
the types of these in order, with the next numbers. -/
structure Loads (s : Shared) (scripts : List Script) (s' : Shared) (ps : List Piece) : Prop where
  scripts : ∀ p ∈ ps, p.script ∈ scripts ∧ p.graph ∈ p.script.functions
  types : ∀ p ∈ ps, s'.catalogue.handle? p.script.type = some p.handle
  functions : ∃ c, s'.catalogue = furnish s.loader.worldType c (ps.zipIdx s.bodies.size)
  size : s'.bodies.size = s.bodies.size + ps.length

/-- The bodies of declared functions are those that they settle to. -/
def Compiles (s : Shared) (ps : List Piece) (first : Nat) : Prop :=
  ∀ i p, ps[i]? = some p → ∃ state, settledOf s.catalogue (p.pending s.catalogue (first + i)) = some state ∧
    s.bodies[first + i]? = some ⟨p.body.name, state⟩

theorem exists_loads {scripts : List Script} (hs : s.act (.load scripts) = some s') :
    ∃ ps, Loads s scripts s' ps ∧ Compiles s' ps s.bodies.size ∧
      s'.loader.bodies = List.range' s.bodies.size ps.length := by
  obtain ⟨hthrough, hs'⟩ := act_load_iff.mp hs
  obtain ⟨es, handles, c, k, hbuilds⟩ := exists_builds s.loader.worldType scripts (s.loader.unload s.workspace).2
  rw [isSome_load] at hthrough
  have hsize := size_unload s
  obtain ⟨-, hloader, hcontext⟩ := load_eq_built s.loader scripts s.workspace
  have hmade : s'.bodies =
      (built s.loader.worldType scripts (s.loader.unload s.workspace).2).2.workspace.context.bodies := by
    rw [← hcontext, hs']
    rfl
  have hcatalogue : s'.catalogue = k.catalogue := by
    rw [hs', show Shared.catalogue _ = (s.loader.load scripts s.workspace).2.2.catalogue from rfl,
      (load_built s.loader scripts s.workspace).2, Workspace.catalogue, hbuilds.context]
  refine ⟨allPieces (s.loader.unload s.workspace).2.catalogue scripts handles,
    ⟨fun p hp => ?_, fun p hp => ?_, ⟨c, ?_⟩, ?_⟩, fun i p hp => ?_, ?_⟩
  · obtain ⟨d, hd, hscript, -, hg⟩ := mem_pieces hp
    rw [hscript]
    exact ⟨script_of_numbered hd, hg⟩
  · obtain ⟨d, -, hscript, hhandle, -⟩ := piece_of_mem hbuilds.declares hp
    rw [hcatalogue, hbuilds.furnished.outfits.handle?_eq, hscript]
    exact hhandle
  · rw [hcatalogue, ← hsize]
    exact hbuilds.furnished.catalogue
  · rw [hmade, hbuilds.size_bodies, hsize]
  · rw [hcatalogue, hmade, ← hsize]
    exact hbuilds.new_body hthrough hp
  · rw [hs', hloader, ← hsize]
    exact hbuilds.bodies_eq

theorem Idle.load {scripts : List Script} (h : Idle first s) (hs : s.act (.load scripts) = some s') :
    (∃ ps, Loads s scripts s' ps ∧ Compiles s' ps s.bodies.size ∧
      s'.loader.bodies = List.range' s.bodies.size ps.length) ∧
      ∀ n, first ≤ n → n < s.bodies.size → ∃ name, s'.bodies[n]? = some ⟨name, .unloaded⟩ := by
  refine ⟨exists_loads hs, fun n hle hlt => ?_⟩
  obtain ⟨-, rfl⟩ := act_load_iff.mp hs
  obtain ⟨es, handles, c, k, hbuilds⟩ := exists_builds s.loader.worldType scripts (s.loader.unload s.workspace).2
  have hmade : (s.loader.load scripts s.workspace).2.2.context.bodies =
      (built s.loader.worldType scripts (s.loader.unload s.workspace).2).2.workspace.context.bodies := by
    rw [(load_eq_built s.loader scripts s.workspace).2.2]
  rw [Shared.bodies, hmade, hbuilds.old_body (by rw [size_unload]; exact hlt)]
  exact h.unloaded hle hlt

theorem Idle.act (h : Idle first s) (hfirst : first ≤ s.bodies.size) {d : Deed} (hs : s.act d = some s') :
    Idle first s' ∧ first ≤ s'.bodies.size := by
  cases d with
  | load scripts =>
    obtain ⟨⟨ps, hloads, -, hbodies⟩, hold⟩ := h.load hs
    have hsize := hloads.size
    refine ⟨⟨fun n hn => ?_, fun n hle hlt hnot => hold n hle ?_⟩, by omega⟩
    · rw [hbodies, List.mem_range'_1] at hn
      omega
    · rw [hbodies, List.mem_range'_1] at hnot
      omega
  | unload =>
    cases act_unload_iff.mp hs
    refine ⟨⟨List.forall_mem_nil _, fun n hle hlt _ => h.unloaded hle ?_⟩, ?_⟩
    · rwa [Shared.bodies, size_unload] at hlt
    · rw [Shared.bodies, size_unload]
      exact hfirst

theorem bodies_changes (cs : List Change) {s s' : Shared} (hs : run (cs.map .host) s = some s') :
    s'.bodies = s.bodies := by
  induction cs generalizing s with
  | nil =>
    cases hs
    rfl
  | cons c cs ih => exact (ih hs).trans (bodies_change c s).1

theorem Idle.run {hs : List Happening} (h : Idle first s) (hfirst : first ≤ s.bodies.size)
    (hrun : Shared.run hs s = some s') : Idle first s' ∧ first ≤ s'.bodies.size :=
  run_induct (P := fun s => Idle first s ∧ first ≤ s.bodies.size) (fun happening s s' hs hstep => by
    cases happening with
    | host c =>
      cases hstep
      obtain ⟨hbodies, hloader⟩ := bodies_change c s
      obtain ⟨⟨hnumbers, hidle⟩, hle⟩ := hs
      exact ⟨⟨hloader ▸ hnumbers, by rwa [Shared.bodies, hbodies, hloader]⟩, by rwa [Shared.bodies, hbodies]⟩
    | loader d => exact hs.1.act hs.2 hstep) ⟨h, hfirst⟩ hrun

/-- What has become of all bodies that a loader made, from a number on: after it loaded, the new ones run or
fail as they compiled, and the others are unloaded; after it unloaded, or was dropped, all are. -/
def Settled (first : Nat) (d : Deed) (s s' : Shared) (k : Context) : Prop :=
  match d with
  | .load scripts =>
    (∀ n, first ≤ n → n < s.bodies.size → k.Unloaded n) ∧
      ∃ ps, Loads s scripts s' ps ∧ ∀ i p, ps[i]? = some p → Outcome s'.catalogue p k (s.bodies.size + i)
  | .unload => ∀ n, first ≤ n → n < s.bodies.size → k.Unloaded n

theorem Idle.settled (h : Idle first s) {d : Deed} (hs : s.act d = some s') {k : Context}
    (hk : k.bodies = s'.bodies) : Settled first d s s' k := by
  cases d with
  | load scripts =>
    obtain ⟨⟨ps, hloads, hcompiles, -⟩, hold⟩ := h.load hs
    refine ⟨fun n hle hlt => ?_, ps, hloads, fun i p hp => ?_⟩
    · obtain ⟨name, hname⟩ := hold n hle hlt
      exact Context.unloaded_of_body (hk ▸ hname)
    · obtain ⟨state, hstate, hbody⟩ := hcompiles i p hp
      exact outcome_of_settled hstate (hk ▸ hbody)
  | unload =>
    cases act_unload_iff.mp hs
    intro n hle hlt
    obtain ⟨name, hname⟩ := h.unloaded hle hlt
    exact Context.unloaded_of_body ((congrArg (·[n]?) hk).trans hname)

theorem Idle.not_pending (h : Idle first s) {d : Deed} (hs : s.act d = some s') {n : Nat} (hle : first ≤ n)
    (name : String) : s'.bodies[n]? ≠ some ⟨name, .pending⟩ := by
  intro hpending
  have hlt : n < s'.bodies.size := (Array.getElem?_eq_some_iff.mp hpending).1
  cases d with
  | load scripts =>
    obtain ⟨⟨ps, hloads, hcompiles, -⟩, hold⟩ := h.load hs
    rcases lt_or_ge n s.bodies.size with hn | hn
    · obtain ⟨name', hname⟩ := hold n hle hn
      cases hname.symm.trans hpending
    · obtain ⟨i, rfl⟩ := Nat.exists_eq_add_of_le hn
      have hi : i < ps.length := by
        have := hloads.size
        omega
      obtain ⟨state, hstate, hbody⟩ := hcompiles i ps[i] (List.getElem?_eq_getElem hi)
      cases hbody.symm.trans hpending
      exact settledOf_ne_pending _ _ hstate
  | unload =>
    cases act_unload_iff.mp hs
    rw [show Shared.bodies _ = (s.loader.unload s.workspace).2.context.bodies from rfl] at hpending hlt
    rw [size_unload] at hlt
    obtain ⟨name', hname⟩ := h.unloaded hle hlt
    cases hname.symm.trans hpending

/-- Whatever a host and a loader did before: once the loader has loaded, the functions that it declared run their
graphs, or fail for the reasons that were found in these, and all that it ever declared before are unloaded;
once it has unloaded, or was dropped, all are. That holds whatever the host does later, and until then no call
meets a body that is pending. -/
theorem bodies_settled {l : Loader} {w : Workspace} (hl : l.Fresh) {hs : List Happening} {d : Deed}
    {cs : List Change} {s'' : Shared} (hrun : run hs { loader := l, workspace := w } = some s)
    (hact : s.act d = some s') (hafter : run (cs.map .host) s' = some s'') :
    Settled w.context.bodies.size d s s' s''.workspace.context ∧
      ∀ n, w.context.bodies.size ≤ n → ∀ name,
        s''.workspace.context.bodies[n]? ≠ some ⟨name, .pending⟩ := by
  have hstart : Idle w.context.bodies.size { loader := l, workspace := w } :=
    ⟨by rw [hl.1]; exact List.forall_mem_nil _, fun n hle hlt => absurd hlt (by simpa [Shared.bodies] using hle)⟩
  obtain ⟨hidle, -⟩ := hstart.run le_rfl hrun
  have hbodies : s''.workspace.context.bodies = s'.bodies := bodies_changes cs hafter
  refine ⟨hidle.settled hact hbodies, fun n hle name => ?_⟩
  rw [hbodies]
  exact hidle.not_pending hact hle name

/-- A script with a function that nothing enters. -/
def stub : Script := { name := "A", functions := [{ name := "F" }] }

/-- Whatever is registered, it is an error that nothing enters a function. -/
theorem settles_stub {c : Catalogue} {b : PendingBody} (hb : b.graph = { name := "F" }) :
    (settledOf c b).isSome := by
  have herrors : b.graph.errors c b.setting.script ≠ [] := by
    have hfound : (b.graph.checkStructure).length = 1 := by
      rw [hb]
      rfl
    rw [Graph.errors, Graph.findings, ne_eq, List.map_eq_nil_iff, List.append_eq_nil_iff]
    exact fun h => absurd hfound (by rw [h.2]; decide)
  have hoverflows : b.graph.overflows = false :=
    Graph.overflows_eq_false (hb ▸ List.forall_mem_nil _)
  unfold settledOf Program.compile Graph.collect?
  rw [hoverflows]
  cases hes : b.graph.errors c b.setting.script with
  | nil => exact absurd hes herrors
  | cons e es => rfl

/-- The function of a script that was loaded and unloaded. -/
theorem bodies_settled_stub : ∃ s s', run [.loader (.load [stub])]
      { loader := { worldType := "World" }, workspace := {} } = some s ∧ s.act .unload = some s' ∧
    0 < s.bodies.size ∧ s'.workspace.context.Unloaded 0 := by
  obtain ⟨l, hl⟩ : ∃ l : Loader, l = { worldType := "World" } := ⟨_, rfl⟩
  have hfresh : l.Fresh := by
    rw [hl]
    exact ⟨rfl, rfl⟩
  obtain ⟨es, handles, c, k, hbuilds⟩ := exists_builds l.worldType [stub] (l.unload {}).2
  have hfree : (l.unload {}).2.catalogue.contains stub.type = false := by
    rw [Workspace.catalogue, hfresh.unload]
    simp [Catalogue.contains]
  obtain ⟨h, hpieces⟩ := pieces_single hfree rfl hbuilds
  have hthrough : (l.load [stub] {}).1.isSome := by
    rw [isSome_load, hbuilds.through_iff, allPending, hpieces]
    exact fun b hb => settles_stub (by cases List.mem_singleton.mp hb; rfl)
  obtain ⟨s, -, hworkspace, -, hrun⟩ := run_load (s := { loader := l, workspace := {} }) hthrough []
  have hsize : 0 < s.bodies.size := by
    rw [Shared.bodies, hworkspace, (load_eq_built l [stub] {}).2.2, hbuilds.size_bodies, hpieces]
    exact Nat.lt_add_left _ Nat.one_pos
  rw [hl] at hrun
  refine ⟨s, _, hrun, act_unload_iff.mpr rfl, hsize, ?_⟩
  have hafter (s : Shared) : run (([] : List Change).map .host) s = some s := rfl
  exact (bodies_settled ⟨rfl, rfl⟩ hrun (act_unload_iff.mpr rfl) (hafter _)).1 0 le_rfl hsize

end Shared

end Flowscript
