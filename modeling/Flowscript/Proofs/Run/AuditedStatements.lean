import Flowscript.Proofs.Run.CachedEvaluation
import Flowscript.Proofs.Run.SlotStamps

/-! # Audited statements

A statement pulls its inputs one after another, and changes nothing else before it has pulled the last of
them. So an audit of what it pulls finds nothing.

A slot is stamped when it is filled, and the statements of a call are counted. So at the beginning of a
statement, no slot bears the stamp of this statement but those of settled outputs, until the count starts
over; and a run that is audited, statement by statement, does what the run does.
-/
namespace Flowscript

open Juncture

namespace Juncture

variable {K : Juncture} {a : Activation}

/-- At the beginning of a statement, nothing that it fills has been filled. -/
theorem Ready.during (hK : K.Ready) : K.During none K.start where
  beside := .refl _ _
  firstBlock := rfl
  base := rfl
  size := rfl
  settled _ _ := rfl
  current id hid hfresh := by
    rw [hK.stale id hid] at hfresh
    cases hfresh

theorem During.enterLoop (h : K.During none a) (marker : LoopMarker) :
    K.During none ⟨a.frame.enterLoop marker, a.machine⟩ := by
  unfold Frame.enterLoop
  split
  · exact h
  · exact ⟨h.beside, h.firstBlock, h.base, h.size, h.settled, h.current⟩

end Juncture

namespace Run

variable {ε α : Type} {K : Juncture} (hK : K.Ready) {a : Activation} {id : PinId} {n : ProgramNode}
  {nid : NodeId} {pull pull' : Pull} {f : Function}

/-- Two computations of a call have the same outcome. -/
abbrev Same (sc : Scope) (a : Activation) (x y : Run α) : Prop :=
  Agree x y sc a (fun _ _ => True) fun _ _ => True

section Same

variable {sc : Scope} {β : Type}

theorem Same.bind {x y : Run β} {f g : β → Run α} {P : β → Activation → Prop}
    {E : ScriptError → Activation → Prop} (hx : Agree x y sc a P E)
    (hf : ∀ r b, P r b → Same sc b (f r) (g r)) : Same sc a (x >>= f) (y >>= g) :=
  Agree.bind (hx.mono (fun _ _ h => h) fun _ _ _ => trivial) hf

theorem Same.look {x : Run β} {f g : β → Run α} (hl : Looks x)
    (h : ∀ r, x sc a = .ok r a → Same sc a (f r) (g r)) : Same sc a (x >>= f) (x >>= g) := by
  have hstays := hl sc a
  cases hx : x sc a with
  | ok r b =>
    obtain rfl : b = a := hstays.ok hx
    exact .of_ok hx (h r hx)
  | error e b =>
    unfold Same Agree Ensures
    rw [bind_of_error hx, bind_of_error hx]
    exact ⟨rfl, trivial⟩

theorem Same.look_node {f g : ProgramNode → Run α}
    (h : ∀ n, sc.program.node? nid = some n → Same sc a (f n) (g n)) :
    Same sc a (node nid >>= f) (node nid >>= g) := by
  refine .look (looks_node nid) fun n hn => h n ?_
  cases hfound : sc.program.node? nid with
  | some n' =>
    rw [node_ok hfound] at hn
    cases hn
    rfl
  | none =>
    simp only [node, bind_of_ok (show program sc a = .ok sc.program a from rfl), hfound] at hn
    cases hn

theorem Same.look_nth {pins : List PinId} {index : Nat} {f g : PinId → Run α}
    (h : ∀ id ∈ pins, Same sc a (f id) (g id)) :
    Same sc a (nth pins index >>= f) (nth pins index >>= g) := by
  refine .look (looks_nth pins index) fun id hid => h id ?_
  unfold nth at hid
  cases hfound : pins[index]? with
  | some found =>
    rw [hfound] at hid
    cases hid
    exact List.mem_of_getElem? hfound
  | none =>
    rw [hfound] at hid
    cases hid

end Same

include hK

section Node

variable (hn : K.program.node? nid = some n) (ha : K.During none a)
  (hsupplies : ∀ j ∈ n.dataIn, K.Supplies pull' pull j)
include ha hsupplies

omit hK in
theorem same_pullBoolBy (hid : id ∈ n.dataIn) : Same K.scope a (pullBoolBy pull' id) (pullBoolBy pull id) :=
  .bind (Same.bind (hsupplies id hid a ha) fun _ _ _ => .self _) fun _ _ _ => .self _

omit hK in
theorem same_visitWhileBy (via : Option PinId) :
    Same K.scope a (visitWhileBy pull' n via) (visitWhileBy pull n via) := by
  refine .look (looks_nth _ _) fun break' _ => .look (looks_nth _ _) fun body _ =>
    .look (looks_nth _ _) fun completed _ => ?_
  split
  · exact .self _
  · have hvisit : ∀ {b : Activation}, K.During none b → Same K.scope b
        (do if ← pullBoolBy pull' (← nth n.dataIn 0) then target body else complete n completed)
        (do if ← pullBoolBy pull (← nth n.dataIn 0) then target body else complete n completed) :=
      fun hb => .look_nth fun id hid => .bind (same_pullBoolBy hb hsupplies hid) fun _ _ _ => .self _
    split
    · exact .of_ok (b := ()) (t := ⟨a.frame.enterLoop (.whileLoop n.id), a.machine⟩) rfl
        (hvisit (ha.enterLoop _))
    · exact hvisit ha

omit hK in
theorem same_setFieldBy (offset : Nat) (type : Handle) :
    Same K.scope a (setFieldBy K.invoke pull' n offset type) (setFieldBy K.invoke pull n offset type) := by
  have howner : Agree (pullTarget pull' n) (pullTarget pull n) K.scope a
      (fun _ b => K.During none b) fun _ _ => True := by
    cases hi : n.dataIn[0]? with
    | some i =>
      exact (agree_pullTarget hi ha (hsupplies i (List.mem_of_getElem? hi))).mono
        (fun _ _ h => h.1.during) fun _ _ _ => trivial
    | none =>
      unfold pullTarget nth
      rw [hi]
      exact ⟨rfl, trivial⟩
  exact .bind howner fun _ b hb => .look_nth fun id hid => .bind (hsupplies id hid b hb) fun _ _ _ => .self _

omit hK in
theorem same_finishBy (ret : Option Place) :
    Same K.scope a (finishBy K.invoke pull' n ret) (finishBy K.invoke pull n ret) := by
  refine .look looks_program fun p _ => ?_
  cases p.result with
  | none => exact .self _
  | some result =>
    exact .look .read fun _ _ => .look_nth fun id hid => .bind (hsupplies id hid a ha) fun _ _ _ => .self _

include hn

theorem same_callNode (hop : n.op = .call f) :
    Same K.scope a (callNode K.invoke pull' n f) (callNode K.invoke pull n f) := by
  refine .bind (agree_withStack (Q := fun _ _ => True) (E := fun _ _ => True) ?_ (fun _ _ _ _ _ => trivial)
    fun _ _ _ _ _ => trivial) fun _ _ _ => .self _
  exact (agree_withArguments hK (Q := fun _ _ _ => True) (P := True) ha (supplied_arguments hK hn hop hsupplies)
    (fun _ _ _ _ _ _ => (Agree.self _).mono (fun _ _ h => h) fun _ _ _ => .inl trivial)
    (fun _ => trivial) fun _ _ _ _ _ _ _ _ _ _ _ => trivial).mono (fun _ _ _ => trivial) fun _ _ _ => trivial

end Node

theorem same_statementBy (ret : Option Place) (arrival : Arrival) :
    Same K.scope K.start (statementBy K.invoke (auditedInput K.notion K.invoke) ret arrival)
      (statementBy K.invoke (pullInput K.invoke) ret arrival) := by
  have hnoted : ∀ (n : ProgramNode) {x y : Run Outcome},
      (∀ b, K.During none b → Same K.scope b x y) →
      Same K.scope K.start (noteNode "Executing node" n >>= fun _ => x)
        (noteNode "Executing node" n >>= fun _ => y) := fun n _ _ hx =>
    .bind ⟨rfl, amid_noteNode hK (.refl hK.during) _ n⟩ fun _ b hb => hx b hb.1.during
  have hsupplies : ∀ {nid n}, K.program.node? nid = some n → ∀ j ∈ n.dataIn,
      K.Supplies (auditedInput K.notion K.invoke) (pullInput K.invoke) j := fun hn j hj =>
    supplies_auditedInput hK ⟨_, _, hn, hj⟩
  cases arrival with
  | again marker =>
    refine .look_node fun n hn => hnoted n fun b hb => ?_
    cases marker with
    | forLoop id => exact .self _
    | whileLoop id =>
      exact .bind (same_visitWhileBy hb (hsupplies hn) none) fun _ _ _ => .self _
  | through id =>
    refine .look (looks_pin id) fun q _ => .look_node fun n hn => hnoted n fun b hb => ?_
    have hsupplies := hsupplies hn
    cases hop : n.op with
    | ret => exact .bind (same_finishBy hb hsupplies ret) fun _ _ _ => .self _
    | call f => exact .bind (same_callNode hK hn hb hsupplies hop) fun _ _ _ => .self _
    | fieldSet offset type => exact .bind (same_setFieldBy hb hsupplies offset type) fun _ _ _ => .self _
    | branch =>
      exact .look_nth fun id hid => .bind (same_pullBoolBy hb hsupplies hid) fun _ _ _ => .self _
    | whileLoop => exact .bind (same_visitWhileBy hb hsupplies (some id)) fun _ _ _ => .self _
    | _ => exact .self _

end Run

end Flowscript

namespace Flowscript

open Juncture

/-- A frame that starts at a block, in a statement with a number. Nothing was filled later than in that
statement, unless the count has started over. -/
structure Frame.Aged (p : Program) (first count : Nat) (f : Frame) : Prop where
  size : f.slots.size = p.pins.size
  firstBlock : f.firstBlock = first
  clocked : count < 2 ^ 32 → f.Clocked p count

namespace Frame.Aged

variable {p : Program} {first count : Nat} {f f' : Frame}

theorem set (h : f.Aged p first count) (id : PinId) (state : SlotState) : (f.set id state).Aged p first count :=
  ⟨(size_slots_set _ _ _).trans h.size, (firstBlock_set _ _ _).trans h.firstBlock,
    fun hcount => (h.clocked hcount).set id state⟩

theorem loops (h : f.Aged p first count) (loops : List LoopMarker) : Aged p first count { f with loops } :=
  ⟨h.size, h.firstBlock, fun hcount => (h.clocked hcount).congr rfl rfl⟩

theorem steers {sc : Scope} (first count : Nat) (n : ProgramNode) (op : Op) :
    Run.Steers (Aged sc.program first count) (fun _ => True) sc n op := by
  have hspares : ∀ id, Spares (Aged sc.program first count) id := fun id f state h => h.set id state
  refine ⟨.of_all hspares, fun i _ => hspares i, .of_spares (fun o _ => hspares o) (fun f marker _ h => ?_) op,
    fun f h => ?_, fun o _ => .look_pin fun q _ => .pure trivial⟩
  · obtain ⟨loops, hloops⟩ := enterLoop_eq f marker
    rw [hloops]
    exact h.loops loops
  · obtain ⟨loops, hloops⟩ := exitLoop_eq f n.id
    rw [hloops]
    exact h.loops loops

end Frame.Aged

/-- A statement with a number begins in a call whose frame starts at a block, and nothing that is filled anew is
fresh, unless the count has started over. The world is older than the call. -/
structure Activation.Timely (sc : Scope) (first count : Nat) (a : Activation) : Prop where
  frame : a.frame.Aged sc.program first count
  stale : count < 2 ^ 32 → ∀ id, sc.program.Volatile id → Run.isFresh a.frame id = false
  room : first + sc.program.pins.size ≤ a.machine.memory.next
  world : ∀ type place, (a.machine.interpreter sc.seat).world = some (type, place) → place.block < first

namespace Activation.Timely

variable {sc : Scope} {first count : Nat} {a b : Activation}

theorem machine (h : a.Timely sc first count) {m : Machine} (hnext : a.machine.memory.next ≤ m.memory.next)
    (hworld : (m.interpreter sc.seat).world = (a.machine.interpreter sc.seat).world) :
    Activation.Timely sc first count ⟨a.frame, m⟩ :=
  { h with
    room := h.room.trans hnext
    world := fun type place hplace => h.world type place (hworld ▸ hplace) }

theorem outside (h : a.Timely sc first count) {place : Place} (hplace : place.block < first) :
    a.Outside sc place := by
  refine ⟨hplace.trans_le ((Nat.le_add_right _ _).trans h.room), ?_⟩
  rintro ⟨id, -, hblock⟩
  rw [h.frame.firstBlock] at hblock
  omega

end Activation.Timely

namespace Run

variable {invoke : Invoke} {sc : Scope} {first count : Nat} {a : Activation}

theorem timely_statement (hsettles : invoke.Settles)
    (hcalls : (Conduct.free .any sc.seat).pact.Calls fun _ => invoke) (h : a.Timely sc first count)
    (ret : Option Place) (arrival : Arrival) :
    Ensures (statement invoke ret arrival) sc a
      (fun outcome b => ∀ next, outcome = .next next → Activation.Timely sc first (count + 1)
        ⟨{ b.frame with statements := b.frame.statements + 1 }, b.machine⟩) fun _ _ => True := by
  have hmachine := (proceeds_statement hsettles ret arrival a).and
    ((steady_statement (G := .growing) hcalls ret arrival).ensures trivial)
  have haged : Finishes (Frame.Aged sc.program first count) sc (statement invoke ret arrival)
      fun outcome f => outcome.Leaves (Frame.Aged sc.program first count) (Frame.Aged sc.program first count)
        (fun _ => True) f :=
    finishes_statement invoke (fun _ hf => hf) (fun id f hf => hf.set id .empty) ret fun n op _ =>
      Frame.Aged.steers first count n op
  refine (hmachine.and (haged a h.frame)).mono (fun outcome b hb next hnext => ?_) fun _ _ _ => trivial
  obtain ⟨⟨hproceeds, hgrows⟩, hleaves⟩ := hb
  subst hnext
  obtain ⟨-, haged⟩ := hleaves
  have hcarries : a.Carries sc {} {} b := hproceeds
  refine ⟨⟨haged.size, haged.firstBlock, fun hcount => ((haged.clocked (by omega)).step hcount).1⟩,
    fun hcount id _ => ((haged.clocked (by omega)).step hcount).2 id, h.room.trans hcarries.next,
    fun type place hplace => h.world type place (hgrows.machine.world ▸ hplace)⟩

theorem timely_tick (h : a.Timely sc first count) :
    Ensures tick sc a (fun _ b => b.Timely sc first count) fun _ _ => True := by
  simp only [tick, Ensures.bind_iff, Ensures.run_interpreter_iff]
  split
  · trivial
  · refine h.machine ?_ ?_
    · rw [Machine.memory_modifyInterpreter]
    · rw [Machine.interpreter_modifyInterpreter]

/-- The first statement begins when arguments have been bound: what the entry puts out is settled. -/
theorem timely_bindArguments (hformed : sc.program.WellFormed sc.context.catalogue) {lies : Layouts}
    (htyped : sc.program.Typed lies sc.context.catalogue) (h : a.Timely sc first 0) {entry : ProgramNode}
    (hentry : sc.program.node? sc.program.entry = some entry) (args : List Value) :
    Ensures (bindArguments 0 entry.dataOut args) sc a (fun _ b => b.Timely sc first 0) fun _ _ => True := by
  have hpure : entry.pure = false := by
    have hsuits := hformed.suits _ _ hentry
    rw [Program.Suits, htyped.entry entry hentry] at hsuits
    exact hsuits.2
  have hsettled : ∀ id ∈ entry.dataOut, ¬ sc.program.Volatile id := by
    intro id hid hvolatile
    obtain ⟨q, hq, hnode⟩ := htyped.output _ _ hentry id hid
    exact hvolatile.not_settled ⟨q, entry, hq, hnode ▸ hentry, hid, hpure⟩
  have hlasts : Lasts
      (fun f => f.Aged sc.program first 0 ∧ ∀ id, sc.program.Volatile id → isFresh f id = false) sc
      (bindArguments 0 entry.dataOut args) := by
    refine lasts_bindArguments (fun id hid f state hf => ⟨hf.1.set id state, fun other hother => ?_⟩) 0 args
    have hne : other ≠ id := fun he => hsettled id hid (he ▸ hother)
    rw [Frame.isFresh_set_of_ne hne]
    exact hf.2 other hother
  refine (((tends_bindArguments 0 entry.dataOut args a).and
    ((steady_bindArguments (C := .free .any sc.seat) (G := .growing) 0 entry.dataOut args).ensures trivial)).and
      (hlasts a ⟨h.frame, h.stale (by omega)⟩)).mono (fun _ b hb => ?_) fun _ _ _ => trivial
  obtain ⟨⟨hcarries, hgrows⟩, ⟨haged, hstale⟩, -⟩ := hb
  exact ⟨haged, fun _ => hstale, h.room.trans hcarries.next,
    fun type place hplace => h.world type place (hgrows.machine.world ▸ hplace)⟩

section Audited

variable {α : Type} {N : Notion} (hp : sc.program.Determinate N sc.context invoke)
  (hthis : ∀ place, sc.this = some place → place.block < first)
include hp hthis

theorem ready_of_timely (h : a.Timely sc first count) (hcount : count < 2 ^ 32) (hdetached : a.Detached sc) :
    Juncture.Ready ⟨N, invoke, sc, a⟩ where
  toDeterminate := hp
  detached := hdetached
  this place hplace := h.outside (hthis place hplace)
  world type place hplace := h.outside (h.world type place hplace)
  stale id hid := h.stale hcount id hid
  size := h.frame.size
  room := by
    rw [h.frame.firstBlock]
    exact h.room

/-- Whether a statement is audited makes no difference, if it makes none where a statement begins. -/
theorem auditing_eq (h : a.Timely sc first count) {x : Pull → Run α}
    (hx : Juncture.Ready ⟨N, invoke, sc, a⟩ → Same sc a (x (auditedInput N invoke)) (x (pullInput invoke))) :
    auditing N invoke count x sc a = x (pullInput invoke) sc a := by
  unfold auditing
  split
  · rename_i hwhen
    exact (hx (ready_of_timely hp hthis h hwhen.1 hwhen.2)).1
  · rfl

variable (hsettles : invoke.Settles) (hcalls : (Conduct.free .any sc.seat).pact.Calls fun _ => invoke)
include hsettles hcalls

/-- By induction on the number of statements: each begins in time, so that auditing it makes no
difference. -/
theorem same_auditedStatements (ret : Option Place) (fuel : Nat) (next : Option PinId)
    (h : a.Timely sc first count) :
    Same sc a (auditedStatements N invoke ret fuel count next) (statements invoke ret fuel next) := by
  induction fuel generalizing a count next with
  | zero => exact .self _
  | succ fuel ih =>
    refine .of_ok (b := a.frame) (t := a) rfl ?_
    cases arrival? next a.frame with
    | none => exact .self _
    | some arrival =>
      refine .bind (P := fun _ b => b.Timely sc first count) ⟨rfl, timely_tick h⟩ fun _ b hb => ?_
      have haudit : auditing N invoke count (fun pull => statementBy invoke pull ret arrival) sc b =
          statement invoke ret arrival sc b := by
        rw [← statementBy_pullInput]
        exact auditing_eq hp hthis hb (x := fun pull => statementBy invoke pull ret arrival) fun hK =>
          same_statementBy hK ret arrival
      refine .bind (.of_eq haudit (timely_statement hsettles hcalls hb ret arrival)) fun outcome c hc => ?_
      cases outcome with
      | done result => exact .self _
      | next next => exact .of_ok (b := ()) rfl (ih next (hc next rfl))

theorem same_auditedBody (h : a.Timely sc first 0) (args : List Value) (ret : Option Place) :
    Same sc a (auditedBody N invoke args ret) (body invoke args ret) := by
  refine .of_ok (b := sc.program) (t := a) rfl (Same.look_node fun entry hentry => ?_)
  refine Same.bind ⟨rfl, timely_bindArguments hp.formed hp.typed h hentry _⟩ fun _ b hb => ?_
  split
  · refine .bind (P := fun _ c => c.Timely sc first 0) ⟨rfl, timely_tick hb⟩ fun _ c hc => ?_
    cases sc.program.returnNode with
    | none => exact .self _
    | some id =>
      refine .look_node fun n hn => .of_eq ?_ (Agree.self _).2
      rw [← finishBy_pullInput]
      exact auditing_eq hp hthis hc (x := fun pull => finishBy invoke pull n ret) fun hK =>
        same_finishBy hK.during (fun j hj => supplies_auditedInput hK ⟨id, n, hn, hj⟩) ret
  · have hstatements : ∀ next, Same sc b (auditedStatements N invoke ret patience 0 next)
        (statements invoke ret patience next) := fun next =>
      same_auditedStatements hp hthis hsettles hcalls ret patience next hb
    cases entry.flowOut.head? with
    | some output => exact .look (looks_target output) fun next _ => hstatements next
    | none => exact hstatements none

end Audited

end Run

/-- Whatever an execution is given was there before. -/
structure Machine.Given (seat : Seat) (args : List Value) (m : Machine) : Prop where
  args : ∀ v ∈ args, ∀ place, v.place? = some place → place.block < m.memory.next
  world : ∀ type place, (m.interpreter seat).world = some (type, place) → place.block < m.memory.next

namespace Program

variable {N : Notion} {invoke : Invoke} {p : Program} {seat : Seat} {args : List Value} {ret : Option Place}
  {w : Context} {m : Machine}

/-- A frame is new when it is taken, and nothing in it is fresh. -/
theorem timely_takeFrame (p : Program) (args : List Value) (w : Context)
    (hworld : ∀ type place, (m.interpreter seat).world = some (type, place) → place.block < m.memory.next) :
    Ensures (p.takeFrame seat) w m (fun f m' => Activation.Timely (p.scope seat args w) m.memory.next 0 ⟨f, m'⟩)
      fun _ _ => True := by
  simp only [takeFrame, Ensures.bind_iff, Ensures.get_iff]
  cases hframe : Frame.take? p (m.interpreter seat).stack with
  | mk base stack =>
    cases base with
    | none => trivial
    | some base =>
      have hnext := congrArg Memory.next (m.memory_modifyInterpreter seat fun i => { i with stack })
      refine ⟨⟨Array.size_replicate, hnext, fun _ => Frame.clocked_replicate p _ _ _⟩,
        fun _ id _ => Frame.isFresh_replicate _ _ _ _ id, ?_, fun type place hplace => hworld type place ?_⟩
      · exact Nat.le_of_eq (congrArg (· + p.pins.size) hnext).symm
      · cases seat <;> exact hplace

section Audited

variable (hp : p.Determinate N w invoke) (hsettles : invoke.Settles)
  (hcalls : (Conduct.free .any seat).pact.Calls fun _ => invoke) (hm : m.Given seat args)
include hp hsettles hcalls hm

theorem executeWith_audited (ret : Option Place) :
    p.executeWith (Run.auditedBody N invoke) seat args ret w m = p.execute invoke seat args ret w m := by
  rw [← executeWith_body]
  have hworld : ∀ type place, ((p.enter seat args m).interpreter seat).world = some (type, place) →
      place.block < m.memory.next := by
    intro type place hplace
    have henter : ((p.enter seat args m).interpreter seat).world =
        (p.worldOf args).getD (m.interpreter seat).world := by cases seat <;> rfl
    rw [henter] at hplace
    unfold worldOf at hplace
    split at hplace
    · cases args with
      | nil => exact hm.world type place hplace
      | cons v vs =>
        obtain ⟨source, hsource, heq⟩ := Option.map_eq_some_iff.mp hplace
        cases heq
        exact hm.args v List.mem_cons_self place hsource
    · exact hm.world type place hplace
  have hthis : ∀ place, (p.scope seat args w).this = some place → place.block < m.memory.next := by
    intro place hplace
    obtain ⟨v, hv, hplace⟩ := Option.bind_eq_some_iff.mp hplace
    obtain ⟨i, -, hv⟩ := Option.bind_eq_some_iff.mp hv
    exact hm.args v (List.mem_of_getElem? hv) place hplace
  have hframed : p.runFramedWith (Run.auditedBody N invoke) seat args ret w (p.enter seat args m) =
      p.runFramedWith (Run.body invoke) seat args ret w (p.enter seat args m) := by
    unfold runFramedWith
    split
    · rfl
    · have hmemory : (p.enter seat args m).memory.next = m.memory.next :=
        congrArg Memory.next (m.memory_modifyInterpreter seat _)
      have htake := timely_takeFrame p args w fun type place hplace =>
        hmemory ▸ hworld type place hplace
      refine (Agree.bind (Q := fun _ _ => True) (E := fun _ _ => True) ⟨rfl, htake⟩
        fun f m' hf => .of_eq ?_ (Agree.self _).2).1
      rw [hmemory] at hf
      have hbody : Run.auditedBody N invoke args ret (p.scope seat args w) ⟨f, m'⟩ = _ :=
        (Run.same_auditedBody hp hthis hsettles hcalls hf args ret).1
      simp only [runInWith, hbody]
  have hrun : ∀ body, p.executeWith body seat args ret w m =
      (Exec.attempt (Exec.mapError (·.within p.script p.name) (p.runFramedWith body seat args ret)) >>=
        conclude p seat m.current (m.interpreter seat)) w (p.enter seat args m) := fun _ => rfl
  rw [hrun, hrun]
  refine (Agree.bind (P := fun _ _ => True) (Q := fun _ _ => True) (E := fun _ _ => True)
    (Agree.exec_attempt (Agree.exec_mapError (.of_eq hframed (Agree.self _).2))) fun _ _ _ => .self _).1

end Audited

end Program

end Flowscript
