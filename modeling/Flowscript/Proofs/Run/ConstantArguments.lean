import Flowscript.Proofs.Run.SparedConstants

/-! # Constant arguments

A program that hands out nothing constant to be changed keeps the seal of a block that it was lent as
constant: fields are written and results constructed elsewhere, and a reference into the block is given
back as constant only. So by the depth of nesting, all functions do if native ones do; and the data
behind a constant argument are afterwards what they were before, whether the call failed or not.
-/
namespace Flowscript

open Activation (Intact)

variable {κ : Seal} {callable : Function → Prop} {sc : Scope} {invoke : Invoke}

/-- A program gives back what lies in the sealed block only as a constant reference. -/
def Program.Yields (κ : Seal) (p : Program) (result : Option Value) : Prop :=
  ∀ v place, result = some v → v.place? = some place → place.block = κ.block →
    v.isOwning = false ∧ ∃ h form, p.result = some (h, form) ∧ form.isMutable = false

theorem Program.yields_none (κ : Seal) (p : Program) : p.Yields κ none := fun _ _ h => nomatch h

theorem Program.yields_of_apart (p : Program) {result : Option Value} (h : κ.Apart result) :
    p.Yields κ result := fun v place hv hplace hblock => absurd hblock (h v hv place hplace)

/-- What lies in the sealed block is handed to outputs of the entry where it stays as it is. -/
def Program.Entrusted (κ : Seal) (p : Program) (args : List Value) : Prop :=
  ∀ i v place, args[i]? = some v → v.place? = some place → place.block = κ.block → p.Guards i

namespace Program.Entrusted

variable {p : Program} {args : List Value} (h : p.Entrusted κ args)
include h

theorem this (seat : Seat) (w : Context) : κ.Free (p.scope seat args w).this := by
  intro place hthis hblock
  obtain ⟨v, hv, hplace⟩ := Option.bind_eq_some_iff.mp hthis
  obtain ⟨i, hi, hv⟩ := Option.bind_eq_some_iff.mp hv
  obtain ⟨hle, -⟩ := h i v place hv hplace hblock
  obtain ⟨type, htype, rfl⟩ := Option.map_eq_some_iff.mp hi
  rw [implicitArgs, htype] at hle
  exact Nat.not_succ_le_self _ hle

theorem world {type : TypeId} {place : Place} (hof : p.worldOf args = some (some (type, place))) :
    place.block ≠ κ.block := by
  intro hblock
  unfold worldOf at hof
  split at hof
  · rename_i hworld
    obtain ⟨v, hv, hplace⟩ := Option.map_eq_some_iff.mp hof
    obtain ⟨source, hsource, heq⟩ := Option.map_eq_some_iff.mp hplace
    cases heq
    rw [List.head?_eq_getElem?] at hv
    obtain ⟨hle, -⟩ := h 0 v place hv hsource hblock
    rw [implicitArgs, hworld] at hle
    exact absurd hle (by rw [Bool.toNat_true]; omega)
  · cases hof

end Program.Entrusted

namespace Run

variable {n : ProgramNode} {nid : NodeId} {id : PinId}

theorem spares_enterLoop (marker : LoopMarker) :
    Maintains (Intact κ sc) sc (modifyFrame (·.enterLoop marker)) fun _ => True := by
  refine .modifyFrame fun g => ?_
  unfold Frame.enterLoop
  split <;> exact ⟨rfl, rfl⟩

theorem spares_complete (n : ProgramNode) (completed : PinId) :
    Maintains (Intact κ sc) sc (complete n completed) fun _ => True := by
  refine Maintains.andThen (.modifyFrame fun g => ?_) fun _ =>
    .looks (looks_target completed)
  unfold Frame.exitLoop
  split <;> exact ⟨rfl, rfl⟩

section Statements

variable (h : sc.Sparing κ callable invoke)
include h

theorem spares_pullAtom (id : PinId) (name : String) (prim : Prim) :
    Maintains (Intact κ sc) sc (pullAtom invoke id name prim) fun _ => True := by
  refine (spares_pullInput h.custody id).bind fun data _ => ?_
  cases data with
  | none => exact .throw _
  | some place =>
    exact (Maintains.looks (looks_expectType id name)).andThen fun _ =>
      (Maintains.looks looks_memory).andThen fun _ => .pure trivial

theorem spares_pullBool (id : PinId) :
    Maintains (Intact κ sc) sc (pullBool invoke id) fun _ => True :=
  (spares_pullAtom h id _ _).andThen fun _ => .pure trivial

theorem spares_pullInt (id : PinId) :
    Maintains (Intact κ sc) sc (pullInt invoke id) fun _ => True := by
  refine (spares_pullAtom h id _ _).bind fun atom _ => ?_
  cases atom <;> exact .pure trivial

theorem spares_visitFor (n : ProgramNode) (via : Option PinId) :
    Maintains (Intact κ sc) sc (visitFor invoke n via) fun _ => True := by
  refine .look_nth fun break' _ => .look_nth fun index _ => .look_nth fun body _ =>
    .look_nth fun completed _ => ?_
  have hend : Maintains (Intact κ sc) sc
      (nth n.dataIn 1 >>= fun id => pullInt invoke id >>= fun stop => readInt index >>= fun i =>
        if i ≥ stop then complete n completed else target body) fun _ => True := by
    refine .look_nth fun id _ => (spares_pullInt h id).bind fun stop _ =>
      (Maintains.looks (looks_readInt index)).bind fun i _ => ?_
    split
    · exact spares_complete n completed
    · exact .looks (looks_target body)
  split
  · exact spares_complete n completed
  · cases via with
    | some pin =>
      exact .look_nth fun id _ => (spares_pullInt h id).bind fun start _ =>
        (spares_writeInt index start).andThen fun _ => (spares_enterLoop _).andThen fun _ => hend
    | none =>
      exact (Maintains.looks (looks_readInt index)).andThen fun _ =>
        (spares_writeInt index _).andThen fun _ => hend

theorem spares_visitWhile (n : ProgramNode) (via : Option PinId) :
    Maintains (Intact κ sc) sc (visitWhile invoke n via) fun _ => True := by
  refine .look_nth fun break' _ => .look_nth fun body _ => .look_nth fun completed _ => ?_
  have hend : Maintains (Intact κ sc) sc
      (nth n.dataIn 0 >>= fun id => pullBool invoke id >>= fun condition =>
        if condition then target body else complete n completed) fun _ => True := by
    refine .look_nth fun id _ => (spares_pullBool h id).bind fun condition _ => ?_
    split
    · exact .looks (looks_target body)
    · exact spares_complete n completed
  split
  · exact spares_complete n completed
  · split
    · exact (spares_enterLoop _).andThen fun _ => hend
    · exact hend

section Nodes

variable (hn : sc.program.node? nid = some n)
include hn

/-- Fields are written through an input that is lent to be changed. -/
theorem spares_setField {offset : Nat} {type : Handle} (hop : n.op = .fieldSet offset type) :
    Maintains (Intact κ sc) sc (setField invoke n offset type) fun _ => True := by
  have hfits := h.fitsForms hn
  rw [Program.FitsForms, hop] at hfits
  refine (spares_pullTarget (spares_pullInput h.custody)).bind ?_
  rintro owner ⟨id, hid, howner⟩
  have hchanges : sc.program.Changes id := by
    refine ⟨nid, n, .ref, hn, ?_, List.mem_of_getElem? hid, hfits id hid, rfl⟩
    rw [hop]
    rintro ⟨⟩
  have hfield : (owner.shift offset).block ≠ κ.block := fun hblock =>
    (howner owner rfl hblock).not_changes hchanges
  refine .look_nth fun id _ => (spares_pullInput h.custody id).bind fun source _ => ?_
  cases source with
  | none => exact .throw _
  | some source =>
    refine .look_read (spares_withStack ?_)
    refine ((spares_copyTemp h.custody.builds type source).mapError _).bind fun temp htemp => .liftTotal ?_
    exact (Exec.spares_destroy _ _).andThen fun _ => (Exec.spares_transfer _ _ hfield).andThen fun _ =>
      (Exec.spares_modifyCare _).andThen fun _ => Exec.spares_free htemp

/-- A reference that is given back is of the form of the pin, so it is constant if it leads into the
block. -/
theorem yields_of_returns (hop : n.op = .ret) {result : Option Value}
    (hresult : Returns κ sc.program.Draws sc.program n result) : sc.program.Yields κ result := by
  have hfits := h.fitsForms hn
  rw [Program.FitsForms, hop] at hfits
  intro v place hv hplace hblock
  obtain ⟨hunowned, id, handle, form, hid, hdraws, hof, howning⟩ := hresult v hv place hplace hblock
  refine ⟨hunowned, handle, form, hof, Form.constant_of_not_lends ?_ howning⟩
  by_contra hlends
  refine hdraws.not_changes ⟨nid, n, form, hn, ?_, List.mem_of_getElem? hid,
    hfits handle form hof id hid, Bool.not_eq_false _ ▸ hlends⟩
  rw [hop]
  rintro ⟨⟩

theorem finish_yields (hop : n.op = .ret) {ret : Option Place} (hret : κ.Free ret) :
    Maintains (Intact κ sc) sc (finish invoke n ret) (sc.program.Yields κ) :=
  (spares_finish h.custody hret).mono fun _ hresult => yields_of_returns h hn hop hresult

end Nodes

theorem spares_finishEmpty {ret : Option Place} (hret : κ.Free ret) :
    Maintains (Intact κ sc) sc (finishEmpty invoke ret) (sc.program.Yields κ) := by
  refine .look_program ?_
  cases sc.program.result with
  | none => exact .pure (sc.program.yields_none κ)
  | some result =>
    obtain ⟨handle, form⟩ := result
    refine .look_read ?_
    dsimp only
    split
    · refine .pure ?_
      rintro v place ⟨⟩ hplace
      cases hplace
    · split
      · exact .throw _
      · exact (spares_produce _ hret fun place hplace =>
          .lift _ (Invoke.spares_defaultAt h.custody.builds hplace handle)).mono
            fun _ => sc.program.yields_of_apart

/-- A statement that ends the call gives back what the program yields. -/
def YieldsDone (κ : Seal) (p : Program) : Outcome → Prop
  | .next _ => True
  | .done result => p.Yields κ result

theorem spares_statement {ret : Option Place} (hret : κ.Free ret) (arrival : Arrival) :
    Maintains (Intact κ sc) sc (statement invoke ret arrival) (YieldsDone κ sc.program) := by
  have hnext : ∀ {x : Run (Option PinId)}, Maintains (Intact κ sc) sc x (fun _ => True) →
      Maintains (Intact κ sc) sc (x >>= fun next => Pure.pure (Outcome.next next))
        (YieldsDone κ sc.program) := fun hx => hx.andThen fun _ => .pure trivial
  have hgo : ∀ (n : ProgramNode) (index : Nat), Maintains (Intact κ sc) sc
      (nth n.flowOut index >>= fun id => target id >>= fun next => Pure.pure (Outcome.next next))
      (YieldsDone κ sc.program) := fun n index => .look_nth fun id _ =>
    hnext (.looks (looks_target id))
  cases arrival with
  | again marker =>
    refine .look_node fun n hn => (spares_noteNode _ n).andThen fun _ => ?_
    cases marker with
    | forLoop id => exact hnext (spares_visitFor h n none)
    | whileLoop id => exact hnext (spares_visitWhile h n none)
  | through id =>
    refine .look_pin fun q _ => .look_node fun n hn => (spares_noteNode _ n).andThen fun _ => ?_
    cases hop : n.op with
    | ret => exact (finish_yields h hn hop hret).bind fun result hresult => .pure hresult
    | call f =>
      exact (spares_callNode h.custody.builds (spares_pullInput h.custody) (h.answers hn hop)).andThen
        fun _ => hgo n 0
    | fieldSet offset type => exact (spares_setField h hn hop).andThen fun _ => hgo n 0
    | branch =>
      exact .look_nth fun id _ => (spares_pullBool h id).andThen fun _ => hgo n _
    | forLoop => exact hnext (spares_visitFor h n (some id))
    | whileLoop => exact hnext (spares_visitWhile h n (some id))
    | reroute => exact hgo n 0
    | entry => exact .throw _
    | fieldGet offset type => exact .throw _
    | comment => exact .throw _

theorem spares_statements {ret : Option Place} (hret : κ.Free ret) (fuel : Nat)
    (next : Option PinId) :
    Maintains (Intact κ sc) sc (statements invoke ret fuel next) (sc.program.Yields κ) := by
  induction fuel generalizing next with
  | zero => exact .throw _
  | succ fuel ih =>
    refine .look_frame fun f _ => ?_
    cases arrival? next f with
    | none => exact spares_finishEmpty h hret
    | some arrival =>
      refine spares_tick.andThen fun _ => (spares_statement h hret arrival).bind fun outcome hdone => ?_
      cases outcome with
      | done result => exact .pure hdone
      | next next =>
        exact Maintains.andThen (.modifyFrame fun _ => ⟨rfl, rfl⟩) fun _ => ih next

/-- The body of a program whose entry shows what lies in the block where it is sheltered. -/
theorem spares_body {args : List Value} {ret : Option Place} (hret : κ.Free ret)
    (hargs : sc.program.Entrusted κ args) :
    Maintains (Intact κ sc) sc (body invoke args ret) (sc.program.Yields κ) := by
  obtain ⟨g, c, s, hedited, hcompile⟩ := h.program.compiled
  have hformed := Program.wellFormed_of_compile hedited hcompile
  refine .look_program (.look_node fun entry hentry => ?_)
  have hbind : Maintains (Intact κ sc) sc
      (bindArguments 0 entry.dataOut (args.drop sc.program.implicitArgs)) fun _ => True := by
    refine spares_bindArguments 0 fun x hx place hplace hblock => ?_
    obtain ⟨i, hi, hget⟩ := List.mem_iff_getElem.mp hx
    have hlt : i < entry.dataOut.length ∧ i < (args.drop sc.program.implicitArgs).length := by
      rw [List.length_zip] at hi
      omega
    rw [List.getElem_zip, List.getElem_drop] at hget
    subst hget
    obtain ⟨-, hguards⟩ := hargs (sc.program.implicitArgs + i) _ place
      (List.getElem?_eq_getElem _) hplace hblock
    rw [Nat.add_sub_cancel_left] at hguards
    exact hguards entry _ hentry (List.getElem?_eq_getElem hlt.1)
  refine hbind.andThen fun _ => ?_
  split
  · rename_i hpure
    obtain ⟨id, n, hid, hn, hop⟩ := hformed.result hpure
    rw [hid]
    refine spares_tick.andThen fun _ => .look_node fun n' hn' => ?_
    rw [hn] at hn'
    cases hn'
    exact finish_yields h hn hop hret
  · cases entry.flowOut.head? with
    | some output =>
      exact (Maintains.looks (looks_target output)).bind fun next _ =>
        spares_statements h hret patience next
    | none => exact spares_statements h hret patience none

end Statements

end Run

namespace Machine.Intact

variable {m m' : Machine} {p : Program} {seat : Seat} {args : List Value}

theorem enter (h : m.Intact κ) (hargs : p.Entrusted κ args) : (p.enter seat args m).Intact κ := by
  refine ⟨?_, ?_, fun other type place hworld => ?_⟩
  · exact (congrArg (Memory.block · κ.block) (m.memory_modifyInterpreter seat _)).trans h.data
  · exact h.known.trans_eq (congrArg Memory.next (m.memory_modifyInterpreter seat _)).symm
  · rw [Program.interpreter_enter] at hworld
    by_cases hseat : other = seat
    · rw [hseat, interpreter_modifyInterpreter] at hworld
      dsimp only at hworld
      cases hof : p.worldOf args with
      | none =>
        rw [hof] at hworld
        exact h.world seat type place hworld
      | some found =>
        rw [hof, Option.getD_some] at hworld
        subst hworld
        exact hargs.world hof
    · rw [interpreter_modifyInterpreter_of_ne _ hseat] at hworld
      exact h.world other type place hworld

theorem leave (h : m.Intact κ) (h' : m'.Intact κ) :
    (Program.leave seat m.current (m.interpreter seat).world m').Intact κ := by
  refine ⟨?_, ?_, fun other type place hworld => ?_⟩
  · exact (congrArg (Memory.block · κ.block) (m'.memory_modifyInterpreter seat _)).trans h'.data
  · exact h'.known.trans_eq (congrArg Memory.next (m'.memory_modifyInterpreter seat _)).symm
  · have hleave : (Program.leave seat m.current (m.interpreter seat).world m').interpreter other =
        (m'.modifyInterpreter seat fun i =>
          { i with depth := i.depth - 1, world := (m.interpreter seat).world }).interpreter other := rfl
    rw [hleave] at hworld
    by_cases hseat : other = seat
    · rw [hseat, interpreter_modifyInterpreter] at hworld
      exact h.world seat type place hworld
    · rw [interpreter_modifyInterpreter_of_ne _ hseat] at hworld
      exact h'.world other type place hworld

end Machine.Intact

namespace Program

open Exec

variable {w : Context} {m : Machine} {p : Program} {seat : Seat} {args : List Value}

variable (h : invoke.Spares κ callable w) (hw : w.Sparing callable) (hp : p.Sparing callable)
  (hargs : p.Entrusted κ args) {ret : Option Place} (hret : κ.Free ret)
include h hw hp hargs hret

/-- A call of a program keeps the seal of a block that is handed on to where it stays as it is. -/
theorem spares_execute (seat : Seat) :
    Maintains (Machine.Intact κ) w (p.execute invoke seat args ret) (p.Yields κ) :=
  maintains_execute (fun _ hm => hm.enter hargs) (fun _ _ hm hm' => hm.leave hm')
    (Run.spares_body ⟨h, hw, hp, hargs.this seat w⟩ hret hargs)

end Program

theorem Program.Implements.yields {p : Program} {f : Function} (h : p.Implements f)
    {result : Option Value} (hr : p.Yields κ result) : f.Yields κ result := by
  intro v place hv hplace hblock
  obtain ⟨howning, handle, form, hresult, hconstant⟩ := hr v place hv hplace hblock
  have hforms := h.result
  rw [hresult, Option.map_some] at hforms
  obtain ⟨r, hfr, hrform⟩ := Option.map_eq_some_iff.mp hforms
  exact ⟨howning, r, hfr, hrform ▸ hconstant⟩

/-- By the depth of nesting: all functions keep the seal intact if native ones do. -/
theorem Invoke.spares_invokeUnder {native : List Call → Native} {w : Context}
    (hn : ∀ calls, (native calls).Spares κ callable w) (hw : w.Sparing callable) (depth : Nat)
    (calls : List Call) : (invokeUnder native depth calls).Spares κ callable w := by
  induction depth generalizing calls with
  | zero => exact fun _ _ _ _ _ _ => .throw _
  | succ depth ih =>
    intro f args ret hcallable hentrusts hret
    unfold invokeUnder
    cases hcheck : f.check (args.map Value.argument) with
    | error e => exact .throw e
    | ok u =>
      have hnative := hn calls _ (ih calls) f args ret hcallable hcheck hentrusts.constant hret
      cases hbody : f.body with
      | script number =>
        refine fun m hm => Ensures.bind_iff.mpr (readyProgram_behind (fun body p hready hstate => ?_)
          fun _ => hm)
        have hentrusted : p.Entrusted κ args := by
          intro i v place hv hplace hblock
          obtain ⟨q, hq, haccepts⟩ := Function.accepts_of_check hcheck hv
          exact hentrusts.guarded i v q place hv hq hplace hblock haccepts number body p hbody hready
            hstate
        have himplements := hw.implements f hcallable number body p hbody hready hstate
        refine Ensures.bind_iff.mpr (Ensures.get_iff.mpr ?_)
        exact ((Program.spares_execute (ih _) hw (hw.programs p ⟨number, body, hready, hstate⟩)
          hentrusted hret m.seat).exec_mapError _ m hm).mono
            (fun _ _ h => ⟨h.1, himplements.yields h.2⟩) fun _ _ h => h
      | native op shape destructor => exact hnative
      | aggregate op whole => exact hnative
      | host host => exact hnative

/-- The data at a place are lent as constant and for nothing else: no argument that may be changed, no
storage for a result and no world lies in the same block. The whole block counts, since native code that is
lent a part of a value to change may reach the rest of it. -/
structure Machine.LendsConstant (m : Machine) (args : List Value) (ret : Option Place)
    (place : Place) : Prop where
  known : place.block < m.memory.next
  args : ∀ v ∈ args, v.form.isMutable = true → ∀ other, v.place? = some other →
    other.block ≠ place.block
  ret : ∀ other, ret = some other → other.block ≠ place.block
  world : ∀ seat type other, (m.interpreter seat).world = some (type, other) →
    other.block ≠ place.block

/-- The data behind each constant argument, in the block that holds them with all their parts, are what
they were before. -/
def Machine.LeavesConstants (m : Machine) (args : List Value) (m' : Machine) : Prop :=
  ∀ v ∈ args, v.form.isMutable = false → ∀ place, v.place? = some place →
    m'.memory.block place.block = m.memory.block place.block

/-- Execution of a program leaves the data behind constant arguments unchanged, whether it succeeds or
not, provided that native functions do the same and that the data are not lent to be changed at the same
time. A parameter that takes a constant argument by value has to guard it: nothing is changed through
what the entry shows of it, since it shows the argument itself and not a copy. -/
theorem Program.execute_leaves_constants {native : List Call → Native} {w : Context} {p : Program}
    {f : Function} (hn : ∀ κ calls, (native calls).Spares κ callable w) (hw : w.Sparing callable)
    (hp : p.Sparing callable) (hf : p.Implements f) (depth : Nat) (calls : List Call) (seat : Seat)
    {args : List Value} (ret : Option Place) (m : Machine)
    (hcheck : f.check (args.map Value.argument) = .ok ())
    (hvalue : ∀ i q v, f.params[i]? = some q → args[i]? = some v → q.form = .value →
      v.form.isMutable = false → p.Guards i)
    (hlends : ∀ v ∈ args, v.form.isMutable = false → ∀ place, v.place? = some place →
      m.LendsConstant args ret place) :
    Ensures (p.execute (invokeUnder native depth calls) seat args ret) w m
      (fun _ m' => m.LeavesConstants args m') fun _ m' => m.LeavesConstants args m' := by
  have hone : ∀ v ∈ args, v.form.isMutable = false → ∀ place, v.place? = some place →
      Ensures (p.execute (invokeUnder native depth calls) seat args ret) w m
        (fun _ m' => m'.memory.block place.block = m.memory.block place.block)
        fun _ m' => m'.memory.block place.block = m.memory.block place.block := by
    intro v hv hconstant place hplace
    have halone := hlends v hv hconstant place hplace
    have hm : m.Intact ⟨place.block, m.memory.block place.block⟩ := ⟨rfl, halone.known, halone.world⟩
    have hentrusted : p.Entrusted ⟨place.block, m.memory.block place.block⟩ args := by
      intro i u other hu hother hblock
      obtain ⟨q, hq, haccepts⟩ := Function.accepts_of_check hcheck hu
      -- An argument in the block is constant, so its parameter spares it.
      have huconstant : u.form.isMutable = false := by
        by_contra hmutable
        exact halone.args u (List.mem_of_getElem? hu) (Bool.not_eq_false _ ▸ hmutable) other hother
          hblock
      by_cases hbyvalue : q.form = .value
      · exact hvalue i q u hq hu hbyvalue huconstant
      · exact hf.guards hp.secure hq (Form.constant_of_spares
          (Form.spares_of_accepts haccepts huconstant) hbyvalue)
    exact ((spares_execute (Invoke.spares_invokeUnder (hn _) hw depth calls) hw hp hentrusted halone.ret
      seat) m hm).mono (fun _ _ h => h.1.data) fun _ _ h => h.data
  unfold Ensures
  cases hr : p.execute (invokeUnder native depth calls) seat args ret w m with
  | ok r m' => exact fun v hv hconstant place hplace => (hone v hv hconstant place hplace).ok hr
  | error e m' => exact fun v hv hconstant place hplace => (hone v hv hconstant place hplace).error hr

namespace Program
def sharing : Catalogue where
  infos := #[{ TypeInfo.new "T" ⟨4, 4⟩ with
    traits := { copy := true }, functions := [(.ofName "See", [see])] }]
  index := (∅ : Std.HashMap TypeId Handle).insert (.ofName "T") 0

theorem handleNamed?_sharing : sharing.handleNamed? "T" = some 0 := by
  have hhandle : sharing.handle? (.ofName "T") = some 0 := by simp [Catalogue.handle?, sharing]
  rw [Catalogue.handleNamed?, hhandle]
  rfl

theorem lookupName?_sharing : sharing.lookupName? "T" = some (sharing.info 0) := by
  rw [Catalogue.lookupName?, handleNamed?_sharing]
  rfl

theorem resolveCall_sharing : NodeKind.resolveCall sharing "T" "See" see.signature = .ok see := by
  rw [NodeKind.resolveCall, lookupName?_sharing]
  simp [sharing, Catalogue.info, TypeInfo.functionsNamed, TypeInfo.overloads, TypeInfo.new, see]

theorem expectedPins_sharing (s : GraphSignature) :
    (NodeKind.call "T" "See" see.signature).expectedPins s sharing = .ok seePins := by
  have htype : NodeKind.typeName sharing (.ofName "T") = .ok "T" := by
    rw [NodeKind.typeName, Catalogue.lookup?, Catalogue.handle?_of_handleNamed? handleNamed?_sharing]
    rfl
  rw [NodeKind.expectedPins, resolveCall_sharing]
  change NodeKind.callPins sharing see = .ok seePins
  simp only [NodeKind.callPins, see, List.mapM_cons, List.mapM_nil, htype]
  rfl

def passing : Graph :=
  EditOp.apply (.addLink ⟨2⟩ ⟨4⟩) sharing
    (EditOp.apply (.addLink ⟨1⟩ ⟨3⟩) sharing
      (EditOp.apply (.addNodeWithPins (.call "T" "See" see.signature) seePins) sharing
        (EditOp.apply (.addNode .entry) sharing
          { name := "Pass", signature := { params := [⟨"t", "T", .value⟩], isStatic := true } })))

theorem edited_passing : passing.Edited := by
  refine .edit (.edit (.edit (.edit (.new "Pass" _) _ _ ?_) _ _ ?_) _ _ ?_) _ _ ?_ <;>
    · unfold Graph.Numbered
      decide

theorem liveNodes_passing : passing.liveNodes =
    [{ id := ⟨1⟩, kind := .entry, firstPin := ⟨1⟩, pinCount := 2 },
      { id := ⟨2⟩, kind := .call "T" "See" see.signature, firstPin := ⟨3⟩, pinCount := 3 }] := rfl

theorem livePins_passing : passing.livePins =
    [{ id := ⟨1⟩, node := ⟨1⟩, direction := .output, name := "Then", type := .flow },
      { id := ⟨2⟩, node := ⟨1⟩, direction := .output, name := "t", type := .data "T" .value },
      { id := ⟨3⟩, node := ⟨2⟩, direction := .input, name := "Exec", type := .flow },
      { id := ⟨4⟩, node := ⟨2⟩, direction := .input, name := "t", type := .data "T" .constRef },
      { id := ⟨5⟩, node := ⟨2⟩, direction := .output, name := "Then", type := .flow }] := rfl

theorem findings_passing : passing.findings sharing = [] := by
  have hpins : passing.nodePins ⟨2⟩ =
      [{ id := ⟨3⟩, node := ⟨2⟩, direction := .input, name := "Exec", type := .flow },
        { id := ⟨4⟩, node := ⟨2⟩, direction := .input, name := "t", type := .data "T" .constRef },
        { id := ⟨5⟩, node := ⟨2⟩, direction := .output, name := "Then", type := .flow }] := rfl
  have hcall : passing.checkNode sharing
      { id := ⟨2⟩, kind := .call "T" "See" see.signature, firstPin := ⟨3⟩, pinCount := 3 } = [] := by
    simp only [Graph.checkNode, expectedPins_sharing, hpins]
    simp [seePins, PinSpec.fits, PinSpec.flowIn, PinSpec.flowOut, PinSpec.dataIn, PinType.type?,
      lookupName?_sharing, show passing.rangeLeaves
        { id := ⟨2⟩, kind := .call "T" "See" see.signature, firstPin := ⟨3⟩, pinCount := 3 } = false
        from rfl]
  have hsignature : Graph.checkSignature sharing passing.signature = [] := by
    change Graph.checkSignature sharing { params := [⟨"t", "T", .value⟩], isStatic := true } = []
    simp only [Graph.checkSignature, Graph.checkParams, Graph.checkType, lookupName?_sharing]
    rfl
  have hlinks : passing.checkLinks sharing = [] := by
    have hproblem : Graph.linkProblem sharing (.data "T" .value) (.data "T" .constRef) = none := by
      simp [Graph.linkProblem, Form.accepts]
    have hlink : passing.checkLink sharing ⟨⟨2⟩, ⟨4⟩, ⟨2⟩⟩ = [] := by
      unfold Graph.checkLink
      rw [show passing.pin? ⟨2⟩ = some { id := ⟨2⟩, node := ⟨1⟩, direction := .output, name := "t"
                                         type := .data "T" .value } from rfl,
        show passing.pin? ⟨4⟩ = some { id := ⟨4⟩, node := ⟨2⟩, direction := .input, name := "t"
                                       type := .data "T" .constRef } from rfl]
      simp only [hproblem]
      rfl
    rw [Graph.checkLinks,
      show passing.liveLinks = [⟨⟨1⟩, ⟨3⟩, ⟨1⟩⟩, ⟨⟨2⟩, ⟨4⟩, ⟨2⟩⟩] from rfl,
      List.flatMap_cons, List.flatMap_cons, hlink]
    rfl
  rw [Graph.findings, liveNodes_passing, List.flatMap_cons, List.flatMap_cons, hcall, hsignature, hlinks]
  rfl

def passingProgram : Program where
  name := "Pass"
  script := none
  nodes := #[some { id := ⟨1⟩, label := "Entry", op := .entry, pure := false, flowOut := [⟨1⟩]
                    dataOut := [⟨2⟩] },
    some { id := ⟨2⟩, label := "Call", op := .call see, pure := false, flowIn := [⟨3⟩]
           flowOut := [⟨5⟩], dataIn := [⟨4⟩] }]
  pins := #[some (lookingProgram.flowPin ⟨1⟩ (some ⟨3⟩)),
    some { node := ⟨1⟩, type := some 0, form := .value, default := none, storage := 0 },
    some (lookingProgram.flowPin ⟨2⟩ none),
    some { node := ⟨2⟩, type := some 0, form := .constRef, default := none, source := some ⟨2⟩
           storage := 4 },
    some (lookingProgram.flowPin ⟨2⟩ none)]
  entry := ⟨1⟩
  returnNode := none
  result := none
  pure := false
  params := 1
  hasWorld := false
  thisType := none
  storage := ⟨8, 4⟩

theorem compile_passing : compile passing sharing {} = .ok passingProgram := by
  have herrors : passing.errors sharing none = [] := by
    rw [Graph.errors, findings_passing]
    rfl
  refine compile_eq_ok_iff.mpr ⟨edited_passing.overflows_eq_false, herrors, ?_⟩
  simp only [assemble, livePins_passing, liveNodes_passing, placePins, placePin,
    handleNamed?_sharing, compileNodes, compileNode, opOf, resolveCall_sharing, bind, Except.bind]
  rfl

theorem node?_passing {id : NodeId} {n : ProgramNode} (hn : passingProgram.node? id = some n) :
    n.op = .entry ∧ n.dataIn = [] ∨ n.op = .call see ∧ n.dataIn = [⟨4⟩] := by
  obtain ⟨hpos, hle⟩ := slot?_bound hn
  obtain ⟨val⟩ := id
  have hval : val = 1 ∨ val = 2 := by
    change 0 < val at hpos
    change val ≤ 2 at hle
    omega
  rcases hval with rfl | rfl
  · cases hn
    exact .inl ⟨rfl, rfl⟩
  · cases hn
    exact .inr ⟨rfl, rfl⟩

/-- It is handed nothing to be changed, so the program shelters all data. -/
theorem shelters_passing (o : PinId) : passingProgram.Shelters o := by
  rintro i ⟨id, n, form, hn, -, hi, hform, hlends⟩ -
  rcases node?_passing hn with ⟨-, hnone⟩ | ⟨-, hone⟩
  · rw [hnone] at hi
    cases hi
  · rw [hone, List.mem_singleton] at hi
    subst hi
    cases hform
    cases hlends

theorem overloads_sharing {handle : Handle} {key : FunctionKey} {f : Function}
    (hf : f ∈ (sharing.info handle).overloads key) : f = see := by
  unfold TypeInfo.overloads at hf
  cases handle with
  | zero =>
    have hfunctions : (sharing.info 0).functions = [(.ofName "See", [see])] := rfl
    rw [hfunctions, List.lookup_cons] at hf
    split at hf
    · exact List.mem_singleton.mp hf
    · cases hf
  | succ handle => cases hf

theorem guardsCopies_see (w : Context) : w.GuardsCopies see := by
  intro i q hq hvalue
  obtain rfl := List.mem_singleton.mp (List.mem_of_getElem? hq)
  cases hvalue

theorem sparing_sharing : Context.Sparing (· = see) { catalogue := sharing } := by
  have hoffers : ∀ p, ¬ Context.Offers { catalogue := sharing } p := by
    rintro p ⟨number, body, hbody, -⟩
    cases hbody
  refine ⟨fun p hp => (hoffers p hp).elim, fun f _ number body p _ hbody hstate =>
    (hoffers p ⟨number, body, hbody, hstate⟩).elim, fun _ _ hf => overloads_sharing hf,
    fun _ f hf => ?_⟩
  rw [overloads_sharing hf]
  exact guardsCopies_see _

theorem spares_builtin_sharing (κ : Seal) :
    Native.builtin.Spares κ (· = see) { catalogue := sharing } := by
  refine Native.spares_builtin sparing_sharing ?_ fun handle f hf => ?_
  · rintro _ rfl
    trivial
  · obtain rfl := overloads_sharing (List.mem_of_find?_eq_some hf)
    exact ⟨rfl, guardsCopies_see _⟩

theorem sparing_passing : passingProgram.Sparing (· = see) := by
  refine ⟨⟨passing, sharing, {}, edited_passing, compile_passing⟩,
    secure_of_compile edited_passing compile_passing fun n hn type hkind => ?_, fun id n f hn hop => ?_⟩
  · rw [liveNodes_passing, List.mem_cons, List.mem_singleton] at hn
    rcases hn with rfl | rfl <;> cases hkind
  · rcases node?_passing hn with ⟨hentry, -⟩ | ⟨hcall, -⟩
    · rw [hentry] at hop
      cases hop
    · rw [hcall] at hop
      cases hop
      rfl

/-- Data that are lent as constant to a parameter that takes them by value. -/
def lentConstant : Value := .borrowed (.ofName "T") .constRef ⟨0, 0, .apart 0⟩

def lending : Machine := { memory := { next := 1 } }

def passFunction : Function := Loader.functionOf "World" (.ofName "S") passing 0

theorem passing_leaves_constants :
    passing.Edited ∧ passingProgram.Implements passFunction ∧
      passFunction.check ([lentConstant].map Value.argument) = .ok () ∧
      ∃ v m', passingProgram.execute (invokeUnder (fun _ => Native.builtin) 2 []) .own [lentConstant]
          none { catalogue := sharing } lending = .ok v m' ∧
        lending.LeavesConstants [lentConstant] m' := by
  have himplements : passingProgram.Implements passFunction :=
    ⟨passing, sharing, {}, "World", .ofName "S", 0, edited_passing, compile_passing, rfl, rfl, rfl⟩
  have hcheck : passFunction.check ([lentConstant].map Value.argument) = .ok () :=
    Function.check_eq_ok_iff.mpr (.cons ⟨rfl, rfl, fun hnull => Bool.noConfusion hnull⟩ .nil)
  have hlends : ∀ v ∈ [lentConstant], v.form.isMutable = false → ∀ place, v.place? = some place →
      lending.LendsConstant [lentConstant] none place := by
    refine List.forall_mem_singleton.mpr fun _ place hplace => ?_
    cases hplace
    refine ⟨Nat.zero_lt_one, List.forall_mem_singleton.mpr fun hmutable => ?_,
      fun _ hnone => (Option.some_ne_none _ hnone.symm).elim, fun seat _ _ hworld => ?_⟩
    · cases hmutable
    · cases seat <;> cases hworld
  have hsucceeds : succeeds (passingProgram.execute (invokeUnder (fun _ => Native.builtin) 2 []) .own
      [lentConstant] none { catalogue := sharing } lending) = true := by decide +kernel
  have hleaves := execute_leaves_constants (fun κ _ => spares_builtin_sharing κ) sparing_sharing
    sparing_passing himplements 2 [] .own none lending hcheck
    (fun i _ _ _ _ _ _ => ⟨Nat.zero_le i, fun _ o _ _ => shelters_passing o⟩) hlends
  cases hr : passingProgram.execute (invokeUnder (fun _ => Native.builtin) 2 []) .own [lentConstant]
      none { catalogue := sharing } lending with
  | error e m' =>
    rw [hr] at hsucceeds
    cases hsucceeds
  | ok v m' => exact ⟨edited_passing, himplements, hcheck, v, m', rfl, hleaves.ok hr⟩

end Program

end Flowscript
