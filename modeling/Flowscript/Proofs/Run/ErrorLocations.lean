import Flowscript.Proofs.Run.FailureCauses
import Flowscript.Proofs.Run.SoundInputs

/-! # Where failures are located

An error that a call raises itself is located in its own function: the node and the pin that it names are
there. The error of a nested call that used up a budget is passed on with its function, script and pin, but
it is located anew at the node that made the call, on each way out. So the node it names in the end is one
of the outermost function.
-/
namespace Flowscript

open Exec Run

variable {w : Context} {p q : Program} {seat : Seat} {args : List Value}

namespace ScriptError

variable {e : ScriptError}

structure Names (q : Program) (e : ScriptError) : Prop where
  function : e.location.function = some q.name
  script : q.script.isSome → e.location.script = q.script
  pin : ∀ id, e.location.pin = some id → q.HasPin id

theorem Names.within (h : e.Names q) (script : Option String) (function : String) :
    (e.within script function).Names q := by
  refine ⟨?_, fun hscript => ?_, h.pin⟩
  · simp only [ScriptError.within, h.function, Option.some_or]
  · obtain ⟨s, hs⟩ := Option.isSome_iff_exists.mp hscript
    simp only [ScriptError.within, h.script hscript, hs, Option.some_or]

theorem Names.atNode (h : e.Names q) (node : NodeId) : (e.atNode node).Names q := ⟨h.1, h.2, h.3⟩

/-- An error without a function is given that of the call it was raised in. -/
theorem Own.names (h : e.Own p) : (e.within p.script p.name).Names p := by
  refine ⟨?_, fun _ => ?_, h.pin⟩
  · simp only [ScriptError.within, h.function, Option.none_or]
  · simp only [ScriptError.within, h.script, Option.none_or]

/-- An error of a call of a program: its own, or that of a nested call that used up a budget, located at
the node that made the call. -/
def Reported (w : Context) (p : Program) (e : ScriptError) : Prop :=
  (e.Names p ∧ ∀ id, e.location.node = some id → p.HasNode id) ∨
    e.kind.isBudget = true ∧ ∃ q, w.Offers q ∧ e.Names q ∧
      ∃ n f, p.Has n ∧ n.op = .call f ∧ e.location.node = some n.id

theorem Reported.exists_names (h : e.Reported w p) (hp : w.Offers p) : ∃ q, w.Offers q ∧ e.Names q := by
  rcases h with ⟨h, -⟩ | ⟨-, q, hq, h, -⟩
  · exact ⟨p, hp, h⟩
  · exact ⟨q, hq, h⟩

theorem blame_cases (f : Function) (ce : CallError) (failure : Option ScriptError) :
    (∃ e, failure = some e ∧ e.kind.isBudget = true ∧ blame f ce failure = e) ∨
      (∀ e, failure = some e → e.kind.isBudget = false) ∧ blame f ce failure = callFailure.plain f ce := by
  cases failure with
  | none => exact .inr ⟨fun _ h => (nomatch h), rfl⟩
  | some e =>
    cases hkind : e.kind.isBudget with
    | true => exact .inl ⟨e, rfl, hkind, by simp [blame, hkind]⟩
    | false =>
      refine .inr ⟨fun e' he' => Option.some.inj he' ▸ hkind, ?_⟩
      simp [blame, hkind]

end ScriptError

namespace Outlook

/-- What calls leave of an outlook: the same interpreter is at work, none is deeper in calls, and a
failure that is new comes from a program that is on offer. -/
structure Resumes (w : Context) (o o' : Outlook) : Prop where
  current : o'.current = o.current
  depth : o'.depth = o.depth
  failure : ∀ seat e, o'.failure seat = some e → o.failure seat = some e ∨ ∃ q, w.Offers q ∧ e.Names q

namespace Resumes

variable {o o' o'' : Outlook}

theorem refl (w : Context) (o : Outlook) : Resumes w o o := ⟨rfl, rfl, fun _ _ h => .inl h⟩

theorem trans (h : Resumes w o o') (h' : Resumes w o' o'') : Resumes w o o'' := by
  refine ⟨h'.current.trans h.current, h'.depth.trans h.depth, fun seat e he => ?_⟩
  rcases h'.failure seat e he with he | hnew
  · exact h.failure seat e he
  · exact .inr hnew

/-- What an interpreter knows of a failure may be forgotten, or a failure of a program on offer recorded. -/
theorem update {failure : Option ScriptError} (h : Resumes w o o') (seat : Seat)
    (hfailure : ∀ e, failure = some e → ∃ q, w.Offers q ∧ e.Names q) :
    Resumes w o ⟨o'.current, o'.depth, Function.update o'.failure seat failure⟩ := by
  refine ⟨h.current, h.depth, fun other e he => ?_⟩
  dsimp only at he
  by_cases hother : other = seat
  · subst hother
    rw [Function.update_self] at he
    exact .inr (hfailure e he)
  · rw [Function.update_of_ne hother] at he
    exact h.failure other e he

theorem clear {m : Machine} (h : Resumes w o m.outlook) (seat : Seat) :
    Resumes w o (m.modifyInterpreter seat fun i => { i with nestedFailure := none }).outlook := by
  rw [Machine.outlook_modifyInterpreter_eq]
  have hdepth : Function.update m.outlook.depth seat (m.interpreter seat).depth = m.outlook.depth :=
    Function.update_eq_self seat m.outlook.depth
  rw [hdepth]
  exact h.update seat fun e he => nomatch he

end Resumes

end Outlook

open Outlook (Resumes)

/-- Calls leave the outlook as they found it, new failures of programs on offer apart. -/
def Invoke.Resumes (w : Context) (invoke : Invoke) : Prop := ∀ o, invoke.Minds (Outlook.Resumes w o) w

theorem NodeCall.Proper.names {sc : Scope} {o : Outlook} {c : NodeCall} {invoke : Invoke} {ce : CallError}
    {m : Machine} {e : ScriptError} (hinvoke : invoke.Resumes sc.context)
    (hc : c.Proper (Resumes sc.context o) sc) (houtcome : c.outcome invoke sc.context = .error ce m)
    (he : m.outlook.failure sc.seat = some e) : ∃ q, sc.context.Offers q ∧ e.Names q := by
  have h := hinvoke c.machine.outlook c.function c.args c.ret c.machine (.refl _ _)
  rcases (h.error houtcome).failure sc.seat e he with hold | hnew
  · rw [hc.cleared] at hold
    cases hold
  · exact hnew

theorem Tale.Explains.reported (sc : Scope) {o : Outlook} {tale : Tale} {invoke : Invoke} {e : ScriptError}
    (hinvoke : invoke.Resumes sc.context) (h : tale.Explains (Resumes sc.context o) invoke sc e) :
    (e.within sc.program.script sc.program.name).Reported sc.context sc.program := by
  rcases h with ⟨-, hown⟩ | ⟨c, ce, m, ⟨hproper, houtcome, -⟩, rfl⟩
  · exact .inl ⟨hown.names, hown.node⟩
  · obtain ⟨n, hn, hid, hop⟩ := hproper.node
    rcases ScriptError.blame_cases c.function ce (m.outlook.failure sc.seat) with
      ⟨e, he, hkind, heq⟩ | ⟨-, heq⟩
    · obtain ⟨q, hq, hnames⟩ := hproper.names hinvoke houtcome he
      rw [heq]
      exact .inr ⟨hkind, q, hq, (hnames.atNode c.node).within _ _, n, c.function, hn, hop,
        congrArg some hid.symm⟩
    · rw [heq, ← hid]
      have hown := (ScriptError.Own.bare (p := sc.program) .functionCallFailed
        (callFailure.plain c.function ce).message).atNode hn.hasNode
      exact .inl ⟨hown.names, hown.node⟩

namespace Program

variable {invoke : Invoke} {m m' : Machine} {O : Outlook → Prop} {ret : Option Place}

/-- Taking a frame leaves the outlook; where there is no room, no place is named. -/
theorem takeFrame_frank (p : Program) (seat : Seat) {m : Machine} (hm : O m.outlook) :
    Ensures (p.takeFrame seat) w m (fun _ m' => O m'.outlook)
      fun e m' => O m'.outlook ∧ e.Own p := by
  have hstack : ∀ stack, (m.modifyInterpreter seat fun i => { i with stack }).outlook = m.outlook :=
    fun _ => m.outlook_modifyInterpreter seat (fun _ => rfl) fun _ => rfl
  simp only [takeFrame, Ensures.bind_iff, Ensures.get_iff]
  split
  · exact ⟨(congrArg O (hstack _)).mpr hm, .bare _ _⟩
  · exact (congrArg O (hstack _)).mpr hm

theorem outlook_closeFrame (sc : Scope) (a : Activation) :
    (closeFrame sc a).outlook = a.machine.outlook := by
  have hkeeps : Frank (· = a.machine.outlook) sc (clearAll sc.program.pins.size) fun _ => True :=
    frank_clearAll _
  have hclear := hkeeps a rfl
  have hgive : ∀ (f : Frame) (m : Machine), (giveFrame sc.seat f m).outlook = m.outlook := fun f m =>
    m.outlook_modifyInterpreter sc.seat (f := fun i => { i with stack := i.stack.rewind f.mark })
      (fun _ => rfl) fun _ => rfl
  unfold closeFrame
  cases hr : clearAll sc.program.pins.size sc a with
  | ok _ b => exact (hgive _ _).trans (hclear.ok hr).1
  | error _ b => exact (hgive _ _).trans (hclear.error hr).1

theorem outlook_recordFailure (p : Program) (seat : Seat) (nested : Bool) (e : ScriptError) (w : Context)
    (m : Machine) : Ensures (p.recordFailure seat nested e) w m
      (fun _ m' => m'.outlook = if nested then
        ⟨m.current, m.outlook.depth, Function.update m.outlook.failure seat (some e)⟩ else m.outlook)
      fun _ _ => True := by
  have htrace : ∀ severity note, Ensures (Exec.trace severity note) w m
      (fun (_ : Unit) m' => m'.outlook = m.outlook) fun (_ : Empty) _ => True := fun severity note =>
    ((minds_trace severity note : Minds (· = m.outlook) w _) m rfl).mono (fun _ _ h => h.1) fun _ _ _ => trivial
  cases nested with
  | false =>
    simp only [recordFailure, Bool.false_eq_true, if_false]
    exact htrace _ _
  | true =>
    simp only [recordFailure, if_true]
    refine (htrace _ _).bind fun _ m' hm' => ?_
    have hcurrent : m'.current = m.current := congrArg Outlook.current hm'
    have hdepth : Function.update m.outlook.depth seat (m'.interpreter seat).depth = m.outlook.depth := by
      rw [← hm']
      exact Function.update_eq_self seat m'.outlook.depth
    rw [Ensures.modify_iff, Machine.outlook_modifyInterpreter_eq, hm', hcurrent, hdepth]

theorem outlook_enter (p : Program) (seat : Seat) (args : List Value) (m : Machine) :
    (p.enter seat args m).outlook =
      ⟨some seat, Function.update m.outlook.depth seat (m.outlook.depth seat + 1), m.outlook.failure⟩ := by
  have h := m.outlook_modifyInterpreter_eq seat fun i =>
    { i with
      steps := if i.depth > 0 then i.steps else 0
      visits := if i.depth > 0 then i.visits else 0
      depth := i.depth + 1
      world := (p.worldOf args).getD i.world }
  have hfailure : Function.update m.outlook.failure seat (m.interpreter seat).nestedFailure =
      m.outlook.failure := Function.update_eq_self seat _
  rw [hfailure] at h
  exact congrArg₂ (Outlook.mk (some seat)) (congrArg Outlook.depth h) (congrArg Outlook.failure h)

theorem outlook_leave (seat : Seat) (current : Option Seat) (world : Option (TypeId × Place)) (m : Machine) :
    (leave seat current world m).outlook =
      ⟨current, Function.update m.outlook.depth seat (m.outlook.depth seat - 1), m.outlook.failure⟩ := by
  have h := m.outlook_modifyInterpreter_eq seat fun i => { i with depth := i.depth - 1, world }
  have hfailure : Function.update m.outlook.failure seat (m.interpreter seat).nestedFailure =
      m.outlook.failure := Function.update_eq_self seat _
  rw [hfailure] at h
  exact congrArg₂ (Outlook.mk current) (congrArg Outlook.depth h) (congrArg Outlook.failure h)

theorem resumes_leave (p : Program) (args : List Value)
    (h : Resumes w (p.enter seat args m).outlook m'.outlook) :
    Resumes w m.outlook (leave seat m.current (m.interpreter seat).world m').outlook := by
  have hdepth := h.depth
  have hfailure := h.failure
  rw [outlook_enter] at hdepth hfailure
  rw [outlook_leave]
  refine ⟨rfl, ?_, hfailure⟩
  dsimp only at hdepth ⊢
  rw [hdepth, Function.update_self, Function.update_idem, Nat.add_sub_cancel, Function.update_eq_self]

theorem ensures_of_reports {α : Type} {sc : Scope} {R : α → Prop} {x : Told α} {y : Run α}
    (hx : Reports O invoke sc x R) (hy : Told.Retells x y) (a : Activation)
    (ha : O a.machine.outlook) :
    Ensures y sc a (fun _ b => O b.machine.outlook) fun e b =>
      O b.machine.outlook ∧ ∃ tale : Tale, tale.Explains O invoke sc e := by
  have h := hx ⟨a, {}⟩ ha fun c hc => nomatch hc
  unfold Ensures
  rw [hy.eval {}]
  simp only [Leaves, Ensures] at h
  cases hr : x sc ⟨a, {}⟩ with
  | ok r t =>
    rw [hr] at h
    exact h.1
  | error e t =>
    rw [hr] at h
    exact ⟨h.1, t.tale, h.2⟩

/-- A call that fails reports an error. It leaves the outlook as it found it, but a nested call records
its error. -/
theorem execute_reports (hinvoke : invoke.Resumes w) (p : Program) (seat : Seat) (args : List Value)
    (ret : Option Place) (m : Machine) :
    Ensures (p.execute invoke seat args ret) w m
      (fun _ m' => Resumes w m.outlook m'.outlook)
      fun e m' => e.Reported w p ∧ (w.Offers p → Resumes w m.outlook m'.outlook) ∧
        (0 < m.outlook.depth seat → m'.outlook.failure seat = some e) := by
  obtain ⟨o, ho⟩ : ∃ o, (p.enter seat args m).outlook = o := ⟨_, rfl⟩
  have hrun : Ensures (p.runFramed invoke seat args ret) w (p.enter seat args m)
      (fun _ m' => Resumes w o m'.outlook)
      fun e m' => Resumes w o m'.outlook ∧ (e.within p.script p.name).Reported w p := by
    have hrefl : Resumes w o (p.enter seat args m).outlook := ho ▸ .refl w _
    unfold runFramed
    split
    · exact ⟨hrefl, .inl ⟨(ScriptError.Own.bare (p := p) .functionCallFailed _).names, fun _ h => nomatch h⟩⟩
    · have hreports : Reports (Resumes w o) invoke (p.scope seat args w) (Told.body invoke args ret)
          fun _ => True := Told.reports_body ⟨hinvoke o, fun m hm => hm.clear seat⟩ args ret
      have hexplained : ∀ {tale : Tale} {e}, tale.Explains (Resumes w o) invoke (p.scope seat args w) e →
          (e.within p.script p.name).Reported w p :=
        Tale.Explains.reported (p.scope seat args w) hinvoke
      refine Ensures.bind ((p.takeFrame_frank seat hrefl).mono (fun _ _ h => h) fun e m' h =>
        ⟨h.1, .inl ⟨h.2.names, h.2.node⟩⟩) fun f m₁ h₁ => runIn_iff.mpr ?_
      refine (ensures_of_reports hreports (Told.retells_body args ret) ⟨f, m₁⟩ h₁).mono
        (fun v a ha => ?_) fun e a ha => ?_
      · rw [Machine.outlook_watchResult, outlook_closeFrame]
        exact ha
      · rw [outlook_closeFrame]
        obtain ⟨ha, tale, hexplains⟩ := ha
        exact ⟨ha, hexplained hexplains⟩
  refine execute_iff.mpr (hrun.mono (fun v m' h => ?_) fun e m' h => ?_)
  · exact resumes_leave p args (ho ▸ h)
  · obtain ⟨h, hreported⟩ := h
    refine (p.outlook_recordFailure seat _ _ w m').mono (fun _ m'' hm'' => ?_) fun _ _ _ => trivial
    refine ⟨hreported, fun hoffers => ?_, fun hdepth => ?_⟩
    · refine resumes_leave p args ?_
      rw [hm'', ho]
      split
      · exact h.update seat fun e he => Option.some.inj he ▸ hreported.exists_names hoffers
      · exact h
    · rw [outlook_leave, hm'']
      have hnested : (m.interpreter seat).depth > 0 := hdepth
      simp only [hnested, decide_true, if_true, Function.update_self]

end Program

theorem Invoke.resumes_under {native : List Call → Native} (hnative : ∀ calls, (native calls).Aside)
    (depth : Nat) (calls : List Call) : (invokeUnder native depth calls).Resumes w := by
  induction depth generalizing calls with
  | zero => exact fun o f args ret => Minds.throw _
  | succ depth ih =>
    intro o f args ret
    have hnat := hnative calls (Outlook.Resumes w o) w _ (ih calls o) f args ret
    unfold invokeUnder
    cases f.check (args.map Value.argument) with
    | error e => exact .throw e
    | ok u =>
      cases hbody : f.body with
      | script number =>
        intro m hm
        refine Ensures.bind (readyProgram_ensures (Q := fun q m' => w.Offers q ∧ m' = m)
          (fun q hq => ⟨hq, rfl⟩) fun e => hm) ?_
        rintro q m₁ ⟨hq, rfl⟩
        have hrun := Program.execute_reports (ih (⟨q, args⟩ :: calls)) q m₁.seat args ret m₁
        simp only [Ensures.bind_iff, Ensures.get_iff, Ensures.exec_mapError_iff]
        exact hrun.mono (fun v m' h => ⟨hm.trans h, trivial⟩) fun e m' h => hm.trans (h.2.1 hq)
      | _ => exact hnat

namespace Program

variable {g g' : Graph}

/-- The program of a graph. -/
def StemsFrom (g : Graph) (p : Program) : Prop := g.Consistent ∧ ∃ c s, compile g c s = .ok p

theorem StemsFrom.numbered (h : p.StemsFrom g) : p.Numbered := by
  obtain ⟨hg, c, s, hcompile⟩ := h
  obtain ⟨hfindings, ha⟩ := assembled_of_compile hg hcompile
  have hchecked := (Graph.findings_eq_nil_iff.mp hfindings).2.1
  have hnode : ∀ id n, p.node? id = some n → ∃ k, g.node? id = some k ∧ k.id = id ∧
      compileNode g c k = .ok n := by
    intro id n hn
    obtain ⟨k, hk, hn⟩ := ha.node_of id n hn
    exact ⟨k, hk, hg.node_id id k hk, hn⟩
  refine ⟨fun id n hn => ?_, fun id n hn i hi => ?_⟩
  · obtain ⟨k, -, hid, hn⟩ := hnode id n hn
    obtain ⟨op, -, rfl⟩ := compileNode_eq hn
    exact hid
  · obtain ⟨k, hk, rfl, hcompiled⟩ := hnode id n hn
    obtain ⟨op, -, rfl⟩ := compileNode_eq hcompiled
    obtain ⟨q, hq, rfl⟩ := List.mem_map.mp hi
    have hmem := (Graph.mem_pinsToward_iff.mp hq).1
    have hown := (hchecked k (mem_live_iff.mpr ⟨k.id.val, hk⟩)).own q hmem
    rw [Graph.nodePins, hk] at hmem
    obtain ⟨j, -, hj⟩ := List.mem_filterMap.mp hmem
    obtain ⟨pp, hpp, hstands⟩ := ha.exists_pin hj
    rw [hg.pin_id j q hj]
    obtain ⟨pn, hpn⟩ := ha.node_exists k.id k hk
    exact ⟨pp, hpp, by rw [hstands.node, hown, hpn]; rfl⟩

theorem StemsFrom.node?_isSome_iff (h : p.StemsFrom g) (id : NodeId) :
    (p.node? id).isSome ↔ (g.node? id).isSome := by
  obtain ⟨hg, c, s, hcompile⟩ := h
  have ha := (assembled_of_compile hg hcompile).2
  simp only [Option.isSome_iff_exists]
  constructor
  · rintro ⟨n, hn⟩
    obtain ⟨k, hk, -⟩ := ha.node_of id n hn
    exact ⟨k, hk⟩
  · rintro ⟨k, hk⟩
    exact ha.node_exists id k hk

theorem StemsFrom.pin?_isSome_iff (h : p.StemsFrom g) (id : PinId) :
    (p.pin? id).isSome ↔ (g.pin? id).isSome := by
  obtain ⟨hg, c, s, hcompile⟩ := h
  have ha := (assembled_of_compile hg hcompile).2
  simp only [Option.isSome_iff_exists]
  constructor
  · rintro ⟨pp, hpp⟩
    obtain ⟨q, hq, -⟩ := ha.pin_of id pp hpp
    exact ⟨q, hq⟩
  · rintro ⟨q, hq⟩
    exact ha.pin_exists id q hq

theorem StemsFrom.exists_call (h : p.StemsFrom g) {n : ProgramNode} {f : Function} (hn : p.Has n)
    (hop : n.op = .call f) : ∃ k type function signature, g.node? n.id = some k ∧
      k.kind = .call type function signature := by
  have hnumbered := h.numbered
  obtain ⟨hg, c, s, hcompile⟩ := h
  obtain ⟨k, hk, hcompiled⟩ := (assembled_of_compile hg hcompile).2.node_of n.id n (hn.2 hnumbered)
  obtain ⟨op, hop', rfl⟩ := compileNode_eq hcompiled
  dsimp only at hop
  subst hop
  obtain ⟨type, function, signature, hkind, -⟩ := exists_call_of_opOf hop'
  exact ⟨k, type, function, signature, hk, hkind⟩

end Program

/-- The node and the pin of a place are there in a graph. -/
structure Location.LiesIn (g : Graph) (l : Location) : Prop where
  node : ∀ id, l.node = some id → (g.node? id).isSome
  pin : ∀ id, l.pin = some id → (g.pin? id).isSome

/-- The error of a failing call names the function it comes from. Its pin is one of that function, and its
node is, too, if the call raised the error itself, or if it did not use up a budget. The error of a nested
call that used up a budget, however deep, names the function of that call but a Call node of the outermost
function: it points into the function it names only if that function happens to have a node of the same
number. -/
theorem Program.execute_error_located {native : List Call → Native} {g : Graph} {c : Context}
    (hnative : ∀ calls, (native calls).Aside) (hp : p.StemsFrom g)
    (hcontext : ∀ q, c.Offers q → ∃ g', q.StemsFrom g') (depth : Nat) (calls : List Call) (seat : Seat)
    (args : List Value) (ret : Option Place) (m m' : Machine) (e : ScriptError)
    (h : p.execute (invokeUnder native depth calls) seat args ret c m = .error e m') :
    (e.location.function = some p.name ∧ (p.script.isSome → e.location.script = p.script) ∧
      e.location.LiesIn g) ∨
    e.kind.isBudget = true ∧ ∃ q g', c.Offers q ∧ q.StemsFrom g' ∧ e.location.function = some q.name ∧
      (q.script.isSome → e.location.script = q.script) ∧
      (∀ id, e.location.pin = some id → (g'.pin? id).isSome) ∧
      ∃ n type function signature, g.node? n.id = some n ∧ n.kind = .call type function signature ∧
        e.location.node = some n.id ∧ (e.location.LiesIn g' ↔ (g'.node? n.id).isSome) := by
  have hreported := ((execute_reports (Invoke.resumes_under hnative depth calls) p seat args ret m).error h).1
  rcases hreported with ⟨hnames, hnode⟩ | ⟨hkind, q, hq, hnames, n, f, hn, hop, hnode⟩
  · refine .inl ⟨hnames.function, hnames.script, fun id hid => ?_, fun id hid => ?_⟩
    · exact (hp.node?_isSome_iff id).mp (hnode id hid hp.numbered)
    · exact (hp.pin?_isSome_iff id).mp (hnames.pin id hid hp.numbered)
  · obtain ⟨g', hg'⟩ := hcontext q hq
    obtain ⟨k, type, function, signature, hk, hcall⟩ := hp.exists_call hn hop
    have hpin : ∀ id, e.location.pin = some id → (g'.pin? id).isSome := fun id hid =>
      (hg'.pin?_isSome_iff id).mp (hnames.pin id hid hg'.numbered)
    have hid : k.id = n.id := hp.1.node_id n.id k hk
    refine .inr ⟨hkind, q, g', hq, hg', hnames.function, hnames.script, hpin, k, type, function, signature,
      hid ▸ hk, hcall, hid ▸ hnode, fun hlies => ?_, fun hlive => ⟨fun id hid' => ?_, hpin⟩⟩
    · exact hlies.node k.id (hid ▸ hnode)
    · rw [hnode, ← hid] at hid'
      exact Option.some.inj hid' ▸ hlive

def inner : Function :=
  { name := "Inner", params := [], result := none, pure := false, body := .script 0 }

def scripted : Catalogue where
  infos := #[{ TypeInfo.new "S" ⟨0, 1⟩ with functions := [(.ofName "Inner", [inner])] }]
  index := (∅ : Std.HashMap TypeId Handle).insert (.ofName "S") 0

theorem handleNamed?_scripted : scripted.handleNamed? "S" = some 0 := by
  have hhandle : scripted.handle? (.ofName "S") = some 0 := by
    simp [Catalogue.handle?, scripted]
  rw [Catalogue.handleNamed?, hhandle]
  rfl

theorem resolveCall_scripted :
    NodeKind.resolveCall scripted "S" "Inner" inner.signature = .ok inner := by
  rw [NodeKind.resolveCall, Catalogue.lookupName?, handleNamed?_scripted]
  simp [scripted, Catalogue.info, TypeInfo.functionsNamed, TypeInfo.overloads, TypeInfo.new, inner]

/-- The body of that function: it returns at once. -/
def returning : Graph :=
  EditOp.apply (.addLink ⟨1⟩ ⟨2⟩) {}
    (EditOp.apply (.addNode .ret) {} (EditOp.apply (.addNode .entry) {} { name := "Inner" }))

def nesting : Graph :=
  EditOp.apply (.addLink ⟨1⟩ ⟨3⟩) scripted
    (EditOp.apply (.addNodeWithPins (.call "S" "Inner" inner.signature) nestingPins) scripted
      (EditOp.apply (.addNode .ret) scripted (EditOp.apply (.addNode .entry) scripted { name := "Outer" })))
where
  nestingPins : List PinSpec := [.flowIn "Exec", .flowOut "Then"]

theorem edited_returning : returning.Edited := by
  refine .edit (.edit (.edit (.new "Inner" {}) _ _ ?_) _ _ ?_) _ _ ?_ <;>
    · unfold Graph.Numbered
      decide

theorem edited_nesting : nesting.Edited := by
  refine .edit (.edit (.edit (.edit (.new "Outer" {}) _ _ ?_) _ _ ?_) _ _ ?_) _ _ ?_ <;>
    · unfold Graph.Numbered
      decide

theorem liveNodes_nesting : nesting.liveNodes =
    [{ id := ⟨1⟩, kind := .entry, firstPin := ⟨1⟩, pinCount := 1 },
      { id := ⟨2⟩, kind := .ret, firstPin := ⟨2⟩, pinCount := 1 },
      { id := ⟨3⟩, kind := .call "S" "Inner" inner.signature, firstPin := ⟨3⟩, pinCount := 2 }] := rfl

theorem findings_nesting : nesting.findings scripted = [] := by
  have hspecs : (NodeKind.call "S" "Inner" inner.signature).expectedPins nesting.signature scripted =
      .ok nesting.nestingPins := by
    rw [NodeKind.expectedPins, resolveCall_scripted]
    rfl
  have hpins : nesting.nodePins ⟨3⟩ =
      [{ id := ⟨3⟩, node := ⟨3⟩, direction := .input, name := "Exec", type := .flow },
        { id := ⟨4⟩, node := ⟨3⟩, direction := .output, name := "Then", type := .flow }] := rfl
  have hcall : nesting.checkNode scripted
      { id := ⟨3⟩, kind := .call "S" "Inner" inner.signature, firstPin := ⟨3⟩, pinCount := 2 } = [] := by
    simp only [Graph.checkNode, hspecs, hpins]
    rfl
  rw [Graph.findings, liveNodes_nesting, List.flatMap_cons, List.flatMap_cons, List.flatMap_cons, hcall]
  rfl

namespace Program

def returningProgram : Program where
  name := "Inner"
  script := some "S"
  nodes := #[some { id := ⟨1⟩, label := "Entry", op := .entry, pure := false, flowOut := [⟨1⟩] },
    some { id := ⟨2⟩, label := "Return", op := .ret, pure := false, flowIn := [⟨2⟩] }]
  pins := #[some (lookingProgram.flowPin ⟨1⟩ (some ⟨2⟩)), some (lookingProgram.flowPin ⟨2⟩ none)]
  entry := ⟨1⟩
  returnNode := some ⟨2⟩
  result := none
  pure := false
  params := 0
  hasWorld := false
  thisType := none
  storage := .empty

theorem compile_returning : compile returning {} { script := some "S" } = .ok returningProgram := rfl

def nestingProgram (name : String) (f : Function) : Program where
  name
  script := none
  nodes := #[some { id := ⟨1⟩, label := "Entry", op := .entry, pure := false, flowOut := [⟨1⟩] },
    some { id := ⟨2⟩, label := "Return", op := .ret, pure := false, flowIn := [⟨2⟩] },
    some { id := ⟨3⟩, label := "Call", op := .call f, pure := false, flowIn := [⟨3⟩], flowOut := [⟨4⟩] }]
  pins := #[some (lookingProgram.flowPin ⟨1⟩ (some ⟨3⟩)), some (lookingProgram.flowPin ⟨2⟩ none),
    some (lookingProgram.flowPin ⟨3⟩ none), some (lookingProgram.flowPin ⟨3⟩ none)]
  entry := ⟨1⟩
  returnNode := some ⟨2⟩
  result := none
  pure := false
  params := 0
  hasWorld := false
  thisType := none
  storage := .empty

theorem compile_nesting : compile nesting scripted {} = .ok (nestingProgram "Outer" inner) := by
  have herrors : nesting.errors scripted none = [] := by
    rw [Graph.errors, findings_nesting]
    rfl
  refine compile_eq_ok_iff.mpr ⟨edited_nesting.overflows_eq_false, herrors, ?_⟩
  simp only [assemble, liveNodes_nesting, compileNodes, compileNode, opOf, resolveCall_scripted,
    bind, Except.bind]
  rfl

def serving : Context := { catalogue := scripted, bodies := #[⟨"S::Inner", .ready returningProgram⟩] }

theorem eq_of_offers_serving {q : Program} (h : serving.Offers q) : q = returningProgram := by
  obtain ⟨number, body, hbody, hstate⟩ := h
  cases number with
  | zero =>
    cases hbody
    cases hstate
    rfl
  | succ number => cases hbody

def hurried : Machine := { own := .new { maxSteps := 1 } }

def failure : EStateM.Result ScriptError Machine (Option Value) → Option (ErrorKind × Location)
  | .ok _ _ => none
  | .error e _ => some (e.kind, e.location)

/-- The error names the third node of a function that has two. -/
theorem nesting_error_misplaced :
    (∀ calls, ((fun _ => Native.builtin : List Call → Native) calls).Aside) ∧ nesting.Edited ∧
      compile nesting scripted {} = .ok (nestingProgram "Outer" inner) ∧
      compile returning {} { script := some "S" } = .ok returningProgram ∧
      ∃ e m', (nestingProgram "Outer" inner).execute (invokeUnder (fun _ => Native.builtin) 2 []) .own [] none
          serving hurried = .error e m' ∧ e.kind = .executionTimeOut ∧
        e.location = { script := some "S", function := some "Inner", node := some ⟨3⟩ } ∧
        ∃ g', returningProgram.StemsFrom g' ∧ (g'.node? ⟨3⟩).isSome = false ∧ ¬ e.location.LiesIn g' := by
  have hp : (nestingProgram "Outer" inner).StemsFrom nesting :=
    ⟨edited_nesting.consistent, scripted, {}, compile_nesting⟩
  have hq : ∀ q, serving.Offers q → ∃ g', q.StemsFrom g' := fun q h =>
    ⟨returning, edited_returning.consistent, {}, { script := some "S" },
      eq_of_offers_serving h ▸ compile_returning⟩
  have hnative : ∀ calls, ((fun _ => Native.builtin : List Call → Native) calls).Aside :=
    fun _ => Native.aside_builtin
  have hfailure : failure ((nestingProgram "Outer" inner).execute
      (invokeUnder (fun _ => Native.builtin) 2 []) .own [] none serving hurried) =
      some (.executionTimeOut, { script := some "S", function := some "Inner", node := some ⟨3⟩ }) := by
    decide +kernel
  cases hr : (nestingProgram "Outer" inner).execute (invokeUnder (fun _ => Native.builtin) 2 []) .own []
      none serving hurried with
  | ok v m' =>
    rw [hr] at hfailure
    cases hfailure
  | error e m' =>
    rw [hr] at hfailure
    obtain ⟨hkind, hlocation⟩ := Prod.mk.inj (Option.some.inj hfailure)
    refine ⟨hnative, edited_nesting, compile_nesting, compile_returning, e, m', rfl, hkind, hlocation, ?_⟩
    rcases execute_error_located hnative hp hq 2 [] .own [] none hurried m' e hr with
      ⟨hfunction, -⟩ | ⟨-, q, g', hoffers, hg', -, -, -, n, type, function, signature, -, -, hnode, hlies⟩
    · rw [hlocation] at hfunction
      exact absurd hfunction (by decide)
    · rw [eq_of_offers_serving hoffers] at hg'
      rw [hlocation] at hnode
      have hid : n.id = ⟨3⟩ := (Option.some.inj hnode).symm
      have hnone : (g'.node? ⟨3⟩).isSome = false := by
        rw [← Bool.not_eq_true, ← hg'.node?_isSome_iff]
        decide
      refine ⟨g', hg', hnone, fun h => ?_⟩
      rw [hlies, hid, hnone] at h
      cases h

end Program

end Flowscript
