import Flowscript.Proofs.Types.DeclaredTypeLaws
import Flowscript.Proofs.Types.ValueDocuments

/-! # Types of which nothing can be made

A type may say that values of it can be made from nothing while none ever is: no constructor takes no arguments,
or the one that does asks for such a value itself. Then it does not help that calls may nest deeper. Scripts
come to declare such types when a function of theirs takes the place of the constructor that was composed.
-/
namespace Flowscript

open Exec

/-- A type says that values of it can be made from nothing, but none ever is. -/
structure TypeInfo.Barren (t : TypeInfo) (w : Context) : Prop where
  marked : t.traits.default = true
  fails : ∀ d target m, ∃ e n, (invokeWithin d).defaultAt t target w m = .error e n

/-- A program returns nothing unless a value of a type can be made from nothing. -/
def Program.Requests (p : Program) (t : TypeInfo) (w : Context) : Prop :=
  ∀ invoke : Invoke, (∀ target m, ∃ e n, invoke.defaultAt t target w m = .error e n) →
    ∀ seat ret m, ∃ e n, p.execute invoke seat [] ret w m = .error e n

theorem Ensures.fails_iff {ρ ε σ α : Type} {x : ReaderT ρ (EStateM ε σ) α} {r : ρ} {s : σ} :
    Ensures x r s (fun _ _ => False) (fun _ _ => True) ↔ ∃ e t, x r s = .error e t := by
  unfold Ensures
  cases x r s with
  | ok a t => exact iff_of_false id fun ⟨_, _, h⟩ => nomatch h
  | error e t => exact iff_of_true trivial ⟨e, t, rfl⟩

theorem Function.params_of_check {f : Function} (h : f.check [] = .ok ()) : f.params = [] :=
  List.map_eq_nil_iff.mp (List.forall₂_nil_right_iff.mp (check_eq_ok_iff.mp h))

namespace TypeInfo

variable {t : TypeInfo} {w : Context}

theorem Barren.not_lawful {V : Type} (h : t.Barren w) (d : Nat) (value : Memory → Place → V) :
    ¬ t.Lawful (invokeWithin d) w value := by
  intro hlawful
  obtain ⟨m, hm⟩ : ∃ m : Machine, m.memory.next = 1 := ⟨{ memory := { next := 1 } }, rfl⟩
  have hseats : t.Seats m.memory ⟨0, 0, .apart 0⟩ := ⟨hm ▸ Nat.one_pos, beq_iff_eq.mpr (Nat.zero_mod _)⟩
  obtain ⟨n, hn, -⟩ := hlawful.construct h.marked m _ hseats
  obtain ⟨e, n', hfails⟩ := h.fails d ⟨0, 0, .apart 0⟩ m
  cases hn.symm.trans hfails

theorem barren_of_unresolved (hmarked : t.traits.default = true)
    (h : ∀ f, t.resolve (.operator .construct) [] ≠ .ok f) : t.Barren w := by
  refine ⟨hmarked, fun d target m => ?_⟩
  obtain ⟨e, hfails⟩ := defaultAt_fails h (invokeWithin d) target w m
  exact ⟨e, m, hfails⟩

theorem exists_defaultAt_error {invoke : Invoke} {target : Place} {m : Machine}
    (h : ∀ f, t.resolve (.operator .construct) [] = .ok f → ∃ e n, invoke f [] (some target) w m = .error e n) :
    ∃ e n, invoke.defaultAt t target w m = .error e n := by
  have hcall : ∃ e n, invoke.callKey t (.operator .construct) [] (some target) w m = .error e n := by
    rw [Invoke.callKey, List.map_nil]
    cases hresolve : t.resolve (.operator .construct) [] with
    | ok f => exact h f hresolve
    | error e => exact ⟨e, m, rfl⟩
  rw [Invoke.defaultAt, Invoke.constructAt]
  split
  · obtain ⟨e, n, hn⟩ := hcall
    exact ⟨e, n, bind_of_error hn⟩
  · exact ⟨_, m, rfl⟩

/-- A constructor that needs a value that was made already never makes the first one. -/
theorem barren_of_requests {number : Nat} {p : Program} (hmarked : t.traits.default = true)
    (honly : ∀ f ∈ t.overloads (.operator .construct), f.params = [] → f.body = .script number)
    (hruns : w.Runs number p) (hp : p.Requests t w) : t.Barren w := by
  refine ⟨hmarked, fun d => ?_⟩
  -- Calls that may nest one deeper only ask those that may nest less deep.
  induction d with
  | zero => exact fun target m => exists_defaultAt_error fun f _ => ⟨.tooDeep, m, rfl⟩
  | succ d ih =>
    refine fun target m => exists_defaultAt_error fun f hresolve => ?_
    obtain ⟨before, after, hoverloads, hcheck, -, -⟩ := resolve_eq_ok_iff.mp hresolve
    have hbody := honly f (hoverloads ▸ List.mem_append_right _ List.mem_cons_self) (Function.params_of_check hcheck)
    obtain ⟨e, n, hn⟩ := hp (invokeWithin d) ih m.seat (some target) m
    refine ⟨.script e, n, (hruns f hbody d [] (some target) hcheck m).trans ?_⟩
    show mapError CallError.script (p.execute (invokeWithin d) m.seat [] (some target)) w m = _
    rw [mapError, hn]

/-- A function that takes the place of the constructor from nothing is the only one left. -/
theorem eq_of_replaced {c : Catalogue} {script : String} {layout : Layout} {parts : List Part} {f g : Function}
    (ht : ∀ key, t.overloads key = (Aggregate.info c script layout parts).overloads key)
    (hkey : f.key = .operator .construct)
    (hsignature : f.signature = (Aggregate.declared c script layout parts).ownDefault.signature)
    (hg : g ∈ (t.addFunction f).overloads (.operator .construct)) (hparams : g.params = []) : g = f := by
  rw [overloads_addFunction, if_pos hkey.symm, ht, Aggregate.overloads_info] at hg
  rcases List.mem_append.mp hg with hg | hg
  · obtain ⟨hmem, hother⟩ := List.mem_filter.mp hg
    obtain ⟨hmem, -⟩ := List.mem_filter.mp (mem_of_mem_latest hmem)
    rw [Aggregate.functions_eq, Aggregate.constructors, Aggregate.comparisons] at hmem
    simp only [List.mem_append, List.mem_ite_nil_right, List.mem_cons, List.not_mem_nil, or_false] at hmem
    rcases hmem with ((⟨-, rfl⟩ | ⟨-, rfl⟩) | ⟨-, rfl⟩) | ⟨-, rfl | rfl⟩
    · exact absurd hsignature.symm (of_decide_eq_true hother)
    all_goals cases hparams
  · exact List.mem_singleton.mp hg

/-- Where the constructors from nothing and by moving have one signature, just the latter is left. -/
theorem unresolved_of_signature (c : Catalogue) (script : String) (layout : Layout) (parts : List Part)
    (ht : ∀ key, t.overloads key = (Aggregate.info c script layout parts).overloads key)
    (hmove : Aggregate.canMove c parts) (hsame : (Aggregate.declared c script layout parts).ownDefault.signature =
      (Aggregate.declared c script layout parts).ownMove.signature) (f : Function) :
    t.resolve (.operator .construct) [] ≠ .ok f := by
  intro hresolve
  obtain ⟨before, after, hoverloads, hcheck, -, -⟩ := resolve_eq_ok_iff.mp hresolve
  have hmem : f ∈ t.overloads (.operator .construct) := hoverloads ▸ List.mem_append_right _ List.mem_cons_self
  have hparams := Function.params_of_check hcheck
  rw [ht, Aggregate.overloads_info, Aggregate.filter_functions_construct, Aggregate.constructors,
    if_pos (show Aggregate.canMove c (Aggregate.declared c script layout parts).parts from hmove),
      latest_concat] at hmem
  rcases List.mem_append.mp hmem with hmem | hmem
  · obtain ⟨hmem, hother⟩ := List.mem_filter.mp hmem
    have hfirst := mem_of_mem_latest hmem
    simp only [List.mem_append, List.mem_ite_nil_right, List.mem_singleton] at hfirst
    rcases hfirst with ⟨-, rfl⟩ | ⟨-, rfl⟩
    · exact of_decide_eq_true hother hsame
    · cases hparams
  · cases List.mem_singleton.mp hmem
    cases hparams

end TypeInfo

namespace Shared

/-- A function of a script that makes values of its type, but never says which. -/
def making : Graph :=
  EditOp.apply (.addNode .entry) {}
    { name := Operator.functionName .construct, signature := { result := some ⟨"S", .value⟩, isStatic := true } }

def maker : Script := { name := "S", functions := [making] }

def made (h : Handle) (setting : Setting) : Program :=
  { name := "operator new", script := setting.script
    nodes := #[some { id := ⟨1⟩, label := "Entry", op := .entry, pure := false, flowOut := [⟨1⟩] }]
    pins := #[some { node := ⟨1⟩, type := none, form := .value, default := none, storage := 0 }]
    entry := ⟨1⟩, returnNode := none, result := some (h, .value), pure := false, params := 0
    hasWorld := setting.hasWorld, thisType := setting.thisType, storage := Layout.empty.pad }

theorem compile_making {c : Catalogue} {h : Handle} (setting : Setting) (hS : c.handleNamed? "S" = some h)
    (hvisible : (c.info h).visible = true) (hownable : (c.info h).isOwnable = true) :
    Program.compile making c setting = .ok (made h setting) := by
  have hlookup : c.lookupName? "S" = some (c.info h) := by
    rw [Catalogue.lookupName?, hS]
    rfl
  have hnodes : making.liveNodes = [{ id := ⟨1⟩, kind := .entry, firstPin := ⟨1⟩, pinCount := 1 }] := rfl
  have hpins : making.livePins =
      [{ id := ⟨1⟩, node := ⟨1⟩, direction := .output, name := "Then", type := .flow }] := rfl
  have herrors : making.errors c setting.script = [] := by
    have hsignature : Graph.checkSignature c making.signature = [] := by
      change Graph.checkSignature c { result := some ⟨"S", .value⟩, isStatic := true } = []
      simp only [Graph.checkSignature, Graph.checkParams, Graph.checkType, hlookup, hvisible, hownable]
      rfl
    have hentry : making.checkNode c { id := ⟨1⟩, kind := .entry, firstPin := ⟨1⟩, pinCount := 1 } = [] := by
      rfl
    rw [Graph.errors, Graph.findings, hnodes, List.flatMap_cons, hentry, hsignature]
    rfl
  have hresult : making.signature.result = some ⟨"S", .value⟩ := rfl
  have hoverflows : making.overflows = false := Graph.overflows_eq_false fun n hn => by
    rw [hnodes, List.mem_singleton] at hn
    rw [hn]
    decide
  refine Program.compile_eq_ok_iff.mpr ⟨hoverflows, herrors, ?_⟩
  simp only [Program.assemble, hpins, hnodes, Program.placePins, Program.placePin, hS, hresult,
    Program.compileNodes, Program.compileNode, Program.opOf, bind, Except.bind]
  rfl

section Runs

variable {invoke : Invoke} {h : Handle} {setting : Setting} {w : Context} {seat : Seat} {ret : Option Place}

theorem of_takeFrame {p : Program} (m : Machine) :
    Ensures (p.takeFrame seat) w m (fun f _ => f.loops = []) fun _ _ => True := by
  simp only [Program.takeFrame, Ensures.bind_iff, Ensures.get_iff]
  cases Frame.take? p (m.interpreter seat).stack with
  | mk base stack =>
    cases base with
    | none => trivial
    | some base => rfl

/-- Where nothing is done, a value is made as its type says on its own. -/
theorem body_making {f : Frame} {m : Machine} (hf : f.loops = []) :
    Run.body invoke [] ret ((made h setting).scope seat [] w) ⟨f, m⟩ =
      Run.finishEmpty invoke ret ((made h setting).scope seat [] w) ⟨f, m⟩ := by
  obtain ⟨n, hn⟩ : ∃ n, Run.patience = n + 1 := ⟨Run.patience - 1, by decide⟩
  have hbody : Run.body invoke [] ret ((made h setting).scope seat [] w) ⟨f, m⟩ =
      Run.statements invoke ret Run.patience none ((made h setting).scope seat [] w) ⟨f, m⟩ := rfl
  have harrival : Run.arrival? none f = none := by
    rw [Run.arrival?, hf]
    rfl
  rw [hbody, hn, Run.statements]
  have hframe : Run.frame ((made h setting).scope seat [] w) ⟨f, m⟩ = .ok f ⟨f, m⟩ := rfl
  rw [bind_of_ok hframe, harrival]

/-- If nothing can be made of the type of the result, nothing is returned where no result is given. -/
theorem fails_finishEmpty
    (hinvoke : ∀ target m,
      Ensures (invoke.defaultAt (w.catalogue.info h) target) w m (fun _ _ => False) fun _ _ => True)
    (ret : Option Place) {p : Program} {args : List Value} (a : Activation) (hresult : p.result = some (h, .value)) :
    Ensures (Run.finishEmpty invoke ret) (p.scope seat args w) a (fun _ _ => False) fun _ _ => True := by
  simp only [Run.finishEmpty, Ensures.bind_iff, Ensures.run_program_iff]
  rw [show (p.scope seat args w).program.result = some (h, .value) from hresult]
  simp only [Ensures.bind_iff, Ensures.read_iff]
  split
  · next hpointer => cases hpointer
  · split
    · trivial
    · cases ret with
      | some place =>
        exact Ensures.bind_iff.mpr (Ensures.run_lift_iff.mpr
          ((hinvoke place a.machine).mono (fun _ _ => False.elim) fun _ _ h => h))
      | none =>
        simp only [Run.produce, Ensures.bind_iff, Ensures.run_liftTotal_iff, Ensures.run_attempt_iff,
          Ensures.run_lift_iff]
        exact (hinvoke _ _).mono (fun _ _ => False.elim) fun _ _ _ => trivial

theorem requests_made (h : Handle) (setting : Setting) (w : Context) :
    (made h setting).Requests (w.catalogue.info h) w := by
  refine fun invoke hinvoke seat ret m => Ensures.fails_iff.mp ?_
  refine Program.execute_iff.mpr (Ensures.mono (Q := fun _ _ => False) (E := fun _ _ => True) ?_ (fun _ _ h => h)
    fun e m' _ => (Agree.self _).2)
  unfold Program.runFramed
  split
  · trivial
  refine Ensures.bind (of_takeFrame _) fun f m' hf => Program.runIn_iff.mpr ?_
  unfold Ensures
  rw [body_making hf]
  exact fails_finishEmpty (fun target m => Ensures.fails_iff.mpr (hinvoke target m)) ret _ rfl

end Runs

/-- Nothing can be made of a type whose script declares how to make it, but not of what. -/
theorem exists_barren_maker : ∃ s' j, unladen.act (.load [maker]) = some s' ∧
    s'.catalogue.handleNamed? "S" = some j ∧
    (s'.catalogue.info j).Barren s'.workspace.context := by
  obtain ⟨s', j, heirs, hact, hj, hinfo, -, hbodies⟩ := exists_load_bare maker rfl
    fun c j setting hS hvisible hownable _ g hg => by
      cases List.mem_singleton.mp hg
      exact ⟨_, compile_making setting hS hvisible hownable⟩
  have hfirst : Loader.firstNamed [] maker.functions = [making] := rfl
  rw [hfirst] at hinfo hbodies
  obtain ⟨q, hq, hbody⟩ := hbodies 0 making rfl
  have hmakeup : (s'.catalogue.info j).makeup = (Aggregate.info {} maker.name ⟨0, 1⟩ []).makeup := by
    rw [hinfo, TypeInfo.makeup_addFunctions, TypeInfo.makeup_withHeirs]
  rw [Aggregate.makeup_info] at hmakeup
  have hvisible : (s'.catalogue.info j).visible = true := congrArg TypeInfo.visible hmakeup
  have hownable : (s'.catalogue.info j).isOwnable = true := congrArg TypeInfo.isOwnable hmakeup
  have hmarked := congrArg TypeInfo.traits hmakeup
  cases hq.symm.trans (compile_making _ hj hvisible hownable)
  refine ⟨s', j, hact, hj, TypeInfo.barren_of_requests (congrArg Traits.default hmarked) (fun g hg hparams => ?_)
    (Context.runs_of_body hbody) (requests_made j _ s'.workspace.context)⟩
  rw [hinfo] at hg
  have hreplaced : g = Loader.functionOf "World" maker.type making 0 :=
    TypeInfo.eq_of_replaced (Catalogue.overloads_withHeirs heirs _) (FunctionKey.ofName_functionName .construct)
      (Function.signature_eq_of_shape rfl) hg hparams
  rw [hreplaced]
  rfl

/-- A script without anything, whose type has one signature for two constructors. -/
def blank : Script := { name := "SideLayout3696" }

/-- Nothing can be made of a type whose constructor from nothing cannot be told from another one. -/
theorem exists_barren_blank : ∃ s' j, unladen.act (.load [blank]) = some s' ∧
    s'.catalogue.handleNamed? blank.name = some j ∧ (s'.catalogue.info j).Barren s'.workspace.context := by
  obtain ⟨s', j, heirs, hact, hj, hinfo, -⟩ := exists_load_bare blank rfl
    fun _ _ _ _ _ _ _ => List.forall_mem_nil _
  have hmakeup : (s'.catalogue.info j).makeup = (Aggregate.info {} blank.name ⟨0, 1⟩ []).makeup := by
    rw [hinfo, TypeInfo.makeup_addFunctions, TypeInfo.makeup_withHeirs]
  rw [Aggregate.makeup_info] at hmakeup
  have hmarked := congrArg TypeInfo.traits hmakeup
  refine ⟨s', j, hact, hj, TypeInfo.barren_of_unresolved (congrArg Traits.default hmarked)
    (TypeInfo.unresolved_of_signature {} blank.name ⟨0, 1⟩ [] (fun key => ?_) rfl ?_)⟩
  · rw [hinfo]
    exact Catalogue.overloads_withHeirs heirs _ key
  · show (TypeId.ofName blank.name).constructions[0] = (TypeId.ofName blank.name).constructions[2]
    decide +kernel

/-- So their types do not obey the laws, though neither has a field. -/
theorem exists_unlawful_load :
    (∃ s' j, maker.fields = [] ∧ unladen.act (.load [maker]) = some s' ∧
    s'.catalogue.handleNamed? "S" = some j ∧
      (s'.catalogue.info j).traits.default ∧ ∀ (V : Type) (d : Nat) (value : Memory → Place → V),
        ¬ (s'.catalogue.info j).Lawful (invokeWithin d) s'.workspace.context value) ∧
    ∃ s' j, blank.fields = [] ∧ unladen.act (.load [blank]) = some s' ∧
      s'.catalogue.handleNamed? "SideLayout3696" = some j ∧
      (s'.catalogue.info j).traits.default ∧ ∀ (V : Type) (d : Nat) (value : Memory → Place → V),
        ¬ (s'.catalogue.info j).Lawful (invokeWithin d) s'.workspace.context value := by
  obtain ⟨s', j, hact, hj, hbarren⟩ := exists_barren_maker
  obtain ⟨t', k, hact', hk, hbarren'⟩ := exists_barren_blank
  exact ⟨⟨s', j, rfl, hact, hj, hbarren.marked, fun _ => hbarren.not_lawful⟩,
    t', k, rfl, hact', hk, hbarren'.marked, fun _ => hbarren'.not_lawful⟩

end Shared

end Flowscript
