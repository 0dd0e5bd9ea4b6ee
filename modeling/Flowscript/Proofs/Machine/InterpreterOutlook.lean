import Flowscript.Proofs.Machine.NestedInvocation
import Flowscript.Proofs.Machine.SealedBlocks

/-! # The outlook of a machine

Which interpreter is at work, how deep each is in calls of programs, and the error of the last nested call
that failed on it: this is the outlook. Nothing but calls of programs changes it, so that native code only
does through what it calls.
-/
namespace Flowscript

variable {ε δ α : Type}

/-- What of a machine only calls of programs change. -/
structure Outlook where
  current : Option Seat
  depth : Seat → Nat
  failure : Seat → Option ScriptError

namespace Machine

def outlook (m : Machine) : Outlook :=
  ⟨m.current, fun seat => (m.interpreter seat).depth, fun seat => (m.interpreter seat).nestedFailure⟩

theorem outlook_modifyInterpreter_eq (m : Machine) (seat : Seat) (f : Interpreter → Interpreter) :
    (m.modifyInterpreter seat f).outlook =
      ⟨m.current, Function.update m.outlook.depth seat (f (m.interpreter seat)).depth,
        Function.update m.outlook.failure seat (f (m.interpreter seat)).nestedFailure⟩ := by
  simp only [outlook, current_modifyInterpreter, Outlook.mk.injEq, true_and]
  constructor <;>
  · funext other
    by_cases h : other = seat
    · subst h
      rw [interpreter_modifyInterpreter, Function.update_self]
    · rw [interpreter_modifyInterpreter_of_ne m h, Function.update_of_ne h]

theorem outlook_modifyInterpreter (m : Machine) (seat : Seat) {f : Interpreter → Interpreter}
    (hdepth : ∀ i, (f i).depth = i.depth) (hfailure : ∀ i, (f i).nestedFailure = i.nestedFailure) :
    (m.modifyInterpreter seat f).outlook = m.outlook := by
  rw [outlook_modifyInterpreter_eq, hdepth, hfailure]
  exact congrArg₂ (Outlook.mk m.current) (Function.update_eq_self seat m.outlook.depth)
    (Function.update_eq_self seat m.outlook.failure)

@[simp] theorem outlook_watchResult (m : Machine) (result : Option Value) :
    (m.watchResult result).outlook = m.outlook := by
  rw [watchResult_eq]
  rfl

end Machine

/-- A computation keeps what holds of the outlook, whether it fails or not. -/
def Minds (O : Outlook → Prop) (w : Context) (x : Exec ε α) : Prop :=
  Maintains (fun m => O m.outlook) w x fun _ => True

variable {O : Outlook → Prop} {w : Context}

namespace Minds

theorem pure (a : α) : Minds O w (Pure.pure a : Exec ε α) := Maintains.pure trivial

theorem throw (e : ε) : Minds O w (MonadExcept.throw e : Exec ε α) := Maintains.throw e

theorem bind {β : Type} {x : Exec ε β} {f : β → Exec ε α} (hx : Minds O w x)
    (hf : ∀ b, Minds O w (f b)) : Minds O w (x >>= f) := hx.andThen hf

theorem looks {x : Exec ε α} (hx : Looks x) : Minds O w x := Maintains.looks hx

theorem modify {f : Machine → Machine} (hf : ∀ m, (f m).outlook = m.outlook) :
    Minds O w (modify f : Exec ε PUnit) := Maintains.modify fun m hm => hf m ▸ hm

theorem modifyGet {f : Machine → α × Machine} (hf : ∀ m, (f m).2.outlook = m.outlook) :
    Minds O w (modifyGet f : Exec ε α) := fun m hm =>
  Ensures.modifyGet_iff.mpr ⟨(congrArg O (hf m)).mpr hm, trivial⟩

theorem mapError {x : Exec ε α} (f : ε → δ) (hx : Minds O w x) : Minds O w (Exec.mapError f x) :=
  Maintains.exec_mapError f hx

theorem attempt {x : Exec ε α} (hx : Minds O w x) :
    Minds O w (Exec.attempt x : Exec δ (Except ε α)) :=
  (Maintains.exec_attempt hx).mono fun _ _ => trivial

end Minds

namespace Exec

theorem minds_emit (e : Event) : Minds O w (emit e : Exec ε Unit) := .modify fun _ => rfl

theorem minds_modifyMemory (f : Memory → Memory) : Minds O w (modifyMemory f : Exec ε Unit) :=
  .modify fun _ => rfl

theorem minds_modifyCare (f : Care → Care) : Minds O w (modifyCare f : Exec ε Unit) :=
  .modify fun _ => rfl

theorem minds_allocate (l : Layout) : Minds O w (allocate l : Exec ε Place) := .modifyGet fun _ => rfl

theorem minds_free (p : Place) : Minds O w (free p : Exec ε Unit) := minds_modifyMemory _

theorem minds_trace (severity : Severity) (note : Unit → Trace) :
    Minds O w (trace severity note : Exec ε Unit) := by
  refine (Minds.looks .read).bind fun v => ?_
  cases v.traceLimit with
  | none => exact .pure ()
  | some limit =>
    dsimp only
    split
    · exact minds_emit _
    · exact .pure ()

theorem minds_destroy (destructor : Option Destructor) (p : Place) :
    Minds O w (destroy destructor p : Exec ε Unit) := by
  cases destructor with
  | none => exact .pure ()
  | some d => exact .modify fun _ => rfl

theorem minds_endCharge (destructor : Option Destructor) (v : Charge) :
    Minds O w (endCharge destructor v : Exec ε Unit) :=
  (minds_destroy destructor v.place).bind fun _ => minds_modifyCare _

theorem minds_drop (v : Value) : Minds O w (drop v : Exec ε Unit) := by
  unfold drop
  cases v.held with
  | owned place size destructor => exact (minds_endCharge _ _).bind fun _ => minds_free place
  | borrowed place => exact .pure ()
  | pointer place => exact .pure ()

theorem minds_dropResult (result : Option Value) : Minds O w (result.forM drop : Exec ε Unit) := by
  cases result with
  | none => exact .pure ()
  | some v => exact minds_drop v

theorem minds_relocate (v : Value) (target : Place) : Minds O w (relocate v target : Exec ε Bool) := by
  unfold relocate
  cases v.held with
  | owned place size destructor =>
    exact (minds_modifyMemory _).bind fun _ => (minds_modifyCare _).bind fun _ =>
      (minds_free place).bind fun _ => .pure true
  | borrowed place => exact .pure false
  | pointer place => exact .pure false

theorem minds_adopt (type : TypeId) (p : Place) (size : Nat) (destructor : Option Destructor) :
    Minds O w (adopt type p size destructor : Exec ε Value) :=
  (minds_modifyCare _).bind fun _ => .pure _

theorem minds_produce (type : TypeId) (layout : Layout) (destructor : Option Destructor)
    (ret : Option Place) {init : Place → Exec ε Unit} (hinit : ∀ place, Minds O w (init place)) :
    Minds O w (produce type layout destructor ret init) := by
  cases ret with
  | some place => exact (hinit place).bind fun _ => .pure none
  | none =>
    refine (minds_allocate layout).bind fun place => (hinit place).attempt.bind fun outcome => ?_
    cases outcome with
    | ok u => exact (minds_adopt _ _ _ _).bind fun v => .pure (some v)
    | error e => exact (minds_free place).bind fun _ => .throw e

theorem minds_giveBack (shape : Shape) (destructor : Option Destructor) (ret : Option Place)
    (data : List Atom) : Minds O w (giveBack shape destructor ret data : Exec ε (Option Value)) :=
  minds_produce _ _ _ _ fun _ => minds_modifyMemory _

theorem minds_orEnd (destructor : Option Destructor) (place : Place) {rest : Exec ε Unit}
    (hrest : Minds O w rest) : Minds O w (orEnd destructor place rest) := by
  refine hrest.attempt.bind fun outcome => ?_
  cases outcome with
  | ok u => exact .pure ()
  | error e => exact (minds_destroy _ _).bind fun _ => .throw e

end Exec

/-- Whatever is called keeps what holds of the outlook. -/
def Invoke.Minds (O : Outlook → Prop) (w : Context) (invoke : Invoke) : Prop :=
  ∀ f args ret, Flowscript.Minds O w (invoke f args ret)

namespace Invoke

open Exec

variable {invoke : Invoke} (h : invoke.Minds O w)
include h

theorem minds_callKey (t : TypeInfo) (key : FunctionKey) (args : List Value) (ret : Option Place) :
    Flowscript.Minds O w (callKey invoke t key args ret) := by
  unfold callKey
  cases t.resolve key (args.map Value.argument) with
  | ok f => exact h f args ret
  | error e => exact .throw e

theorem minds_callNamed (type : TypeId) (name : String) (args : List Value) :
    Flowscript.Minds O w (callNamed invoke type name args) := by
  refine (Minds.looks looks_catalogue).bind fun c => ?_
  cases c.lookup? type with
  | some t => exact minds_callKey h t _ args none
  | none => exact .throw _

theorem minds_constructAt (t : TypeInfo) (target : Place) (args : List Value) :
    Flowscript.Minds O w (constructAt invoke t target args) := by
  unfold constructAt
  split
  · refine (minds_callKey h t _ args _).bind fun result => ?_
    cases result with
    | none => exact .pure ()
    | some v =>
      refine (minds_relocate v target).bind fun moved => ?_
      cases moved with
      | true => exact .pure ()
      | false => exact .throw _
  · exact .throw _

theorem minds_defaultAt (t : TypeInfo) (target : Place) :
    Flowscript.Minds O w (defaultAt invoke t target) := minds_constructAt h t target []

theorem minds_copyAt (t : TypeInfo) (target source : Place) :
    Flowscript.Minds O w (copyAt invoke t target source) := minds_constructAt h t target _

theorem minds_moveAt (t : TypeInfo) (target source : Place) :
    Flowscript.Minds O w (moveAt invoke t target source) := minds_constructAt h t target _

theorem minds_equals (t : TypeInfo) (a b : Place) :
    Flowscript.Minds O w (equals invoke t a b : Exec ε (Option Bool)) := by
  unfold equals
  cases equality? t with
  | none => exact .pure none
  | some f =>
    refine (minds_allocate _).bind fun out => (h f _ _).attempt.bind fun outcome =>
      (Minds.looks looks_memory).bind fun memory => (minds_free out).bind fun _ => ?_
    cases outcome with
    | error e => exact .pure none
    | ok v => exact (minds_dropResult v).bind fun _ => .pure _

omit h in
theorem minds_buildParts (place : α → Place) (destructor : α → Option Destructor)
    {init : α → Exec CallError Unit} (hinit : ∀ a, Flowscript.Minds O w (init a)) (parts : List α) :
    Flowscript.Minds O w (buildParts place destructor init parts) := by
  induction parts with
  | nil => exact .pure ()
  | cons a rest ih => exact (hinit a).bind fun _ => minds_orEnd _ _ ih

omit h

mutual

theorem minds_decode (h : invoke.Minds O w) (codec : Codec) (j : Json) (target : Place) :
    Flowscript.Minds O w (decode invoke codec j target) := by
  cases codec with
  | native c =>
    unfold decode
    cases c.decode j with
    | ok data => exact minds_modifyMemory _
    | error e => exact .throw e
  | aggregate parts =>
    unfold decode
    cases j with
    | obj entries => exact minds_decodeParts h parts entries target
    | _ => exact .throw _

theorem minds_decodeParts (h : invoke.Minds O w) (parts : List (Part × Codec))
    (entries : List (String × Json)) (target : Place) :
    Flowscript.Minds O w (decodeParts invoke parts entries target) := by
  match parts with
  | [] =>
    unfold decodeParts
    exact .pure ()
  | (part, codec) :: rest =>
    have hrest := minds_orEnd part.destructor (target.shift part.offset)
      (minds_decodeParts h rest entries target)
    unfold decodeParts
    cases entries.lookup part.name with
    | some j => exact ((minds_decode h codec j _).mapError _).bind fun _ => hrest
    | none =>
      cases part.default with
      | some j => exact ((minds_decode h codec j _).mapError _).bind fun _ => hrest
      | none =>
        exact (Minds.looks (looks_typeInfo _)).bind fun t =>
          (minds_defaultAt h t _).bind fun _ => hrest

end

theorem minds_decodeAt (h : invoke.Minds O w) (t : TypeInfo) (j : Json) (target : Place) :
    Flowscript.Minds O w (decodeAt invoke t j target) := by
  unfold decodeAt
  cases t.codec with
  | some codec => exact minds_decode h codec j target
  | none => exact .throw _

theorem minds_defaultPart (h : invoke.Minds O w) (part : Part) (target : Place) :
    Flowscript.Minds O w (defaultPart invoke part target) := by
  refine (Minds.looks (looks_typeInfo _)).bind fun t => ?_
  cases part.default with
  | some j => exact (minds_decodeAt h t j target).mapError _
  | none => exact minds_defaultAt h t target

end Invoke

open Exec

namespace NativeOp

theorem minds_takeData (shape : Shape) (args : List Value) (index : Nat) :
    Minds O w (takeData shape args index) :=
  (Minds.looks (looks_changeArgument shape args index)).bind fun _ =>
    (Minds.looks looks_memory).bind fun _ => (minds_modifyMemory _).bind fun _ => .pure _

theorem minds_assign (shape : Shape) (destructor : Option Destructor) (args : List Value)
    (data : List Atom) : Minds O w (assign shape destructor args data) :=
  (Minds.looks (looks_changeArgument shape args 0)).bind fun _ =>
    (minds_destroy _ _).bind fun _ => (minds_modifyMemory _).bind fun _ => .pure none

theorem minds_run (op : NativeOp) (shape : Shape) (destructor : Option Destructor) (args : List Value)
    (ret : Option Place) : Minds O w (op.run shape destructor args ret) := by
  have hdata := fun index => Minds.looks (O := O) (w := w) (looks_argumentData shape args index)
  have hgive : ∀ (s : Shape) (d : Option Destructor) (data : List Atom),
      Minds O w (giveBack s d ret data : Exec CallError (Option Value)) :=
    fun s d data => minds_giveBack s d ret data
  cases op with
  | default => exact hgive _ _ _
  | moveConstruct => exact (minds_takeData _ _ _).bind fun _ => hgive _ _ _
  | moveAssign => exact (minds_takeData _ _ _).bind fun _ => minds_assign _ _ _ _
  | copyConstruct => exact (hdata 0).bind fun _ => hgive _ _ _
  | copyAssign => exact (hdata 1).bind fun _ => minds_assign _ _ _ _
  | compare op => exact (hdata 0).bind fun _ => (hdata 1).bind fun _ => hgive _ _ _
  | arithmetic prim op =>
    refine (hdata 0).bind fun a => (hdata 1).bind fun b => ?_
    split
    · split
      · exact hgive _ _ _
      · exact .throw _
    · exact .throw _
  | concat =>
    refine (hdata 0).bind fun a => (hdata 1).bind fun b => ?_
    split <;> exact hgive _ _ _
  | largest =>
    refine (hdata 0).bind fun a => (hdata 1).bind fun b => ?_
    split <;> exact hgive _ _ _
  | twice =>
    refine (hdata 0).bind fun a => ?_
    split <;> exact hgive _ _ _
  | byteLength =>
    refine (hdata 0).bind fun a => ?_
    split <;> exact hgive _ _ _
  | startsWith =>
    refine (hdata 0).bind fun a => (hdata 1).bind fun b => ?_
    split <;> exact hgive _ _ _

end NativeOp

variable {invoke : Invoke}

namespace AggregateOp

theorem minds_build (whole : Aggregate) (ret : Option Place) {init : Part → Place → Exec CallError Unit}
    (hinit : ∀ part place, Minds O w (init part place)) : Minds O w (build whole ret init) :=
  minds_produce _ _ _ _ fun _ => Invoke.minds_buildParts _ _ (fun part => hinit part _) _

theorem minds_equalParts (h : invoke.Minds O w) (a b : Place) (parts : List Part) :
    Minds O w (equalParts invoke a b parts) := by
  induction parts with
  | nil => exact .pure true
  | cons part rest ih =>
    refine (Minds.looks (looks_typeInfo _)).bind fun t =>
      (Invoke.minds_equals h t _ _).bind fun equal => ?_
    match equal with
    | none => exact .throw _
    | some false => exact .pure false
    | some true => exact ih

theorem minds_compare (h : invoke.Minds O w) (whole : Aggregate) (expected : Bool) (args : List Value)
    (ret : Option Place) : Minds O w (compare invoke whole expected args ret) := by
  unfold compare
  split
  · exact (minds_equalParts h _ _ _).bind fun _ => minds_giveBack _ _ _ _
  · exact .throw _

theorem minds_run (h : invoke.Minds O w) (op : AggregateOp) (whole : Aggregate) (args : List Value)
    (ret : Option Place) : Minds O w (op.run invoke whole args ret) := by
  cases op with
  | default => exact minds_build _ _ (Invoke.minds_defaultPart h)
  | copy =>
    exact (Minds.looks (looks_source args)).bind fun _ => minds_build _ _ fun _ _ =>
      (Minds.looks (looks_typeInfo _)).bind fun t => Invoke.minds_copyAt h t _ _
  | move =>
    refine (Minds.looks (looks_source args)).bind fun _ => minds_build _ _ fun _ _ =>
      (Minds.looks (looks_typeInfo _)).bind fun t => ?_
    cases t.traits.move with
    | true => exact Invoke.minds_moveAt h t _ _
    | false => exact Invoke.minds_copyAt h t _ _
  | equal => exact minds_compare h _ _ _ _
  | notEqual => exact minds_compare h _ _ _ _

end AggregateOp

namespace HostFunction

theorem minds_produceResult (f : Function) (ret : Option Place)
    {init : TypeInfo → Place → Exec CallError Unit} (hinit : ∀ t place, Minds O w (init t place)) :
    Minds O w (produceResult f ret init) :=
  (Minds.looks (looks_resultType f)).bind fun t => minds_produce _ _ _ _ (hinit t)

theorem minds_perform (h : invoke.Minds O w) (host : HostFunction) (f : Function) (args : List Value)
    (ret : Option Place) : Minds O w (host.perform invoke f args ret) := by
  unfold perform
  cases host.outcome with
  | nothing => exact .pure none
  | decoded j => exact minds_produceResult _ _ fun t _ => Invoke.minds_decodeAt h t j _
  | owned j => exact minds_produceResult _ _ fun t _ => Invoke.minds_decodeAt h t j _
  | copy index =>
    exact (Minds.looks (looks_argumentPlace args index)).bind fun _ =>
      minds_produceResult _ _ fun t _ => Invoke.minds_copyAt h t _ _
  | zeroed => exact minds_produceResult _ _ fun _ _ => minds_modifyMemory _
  | bytes index =>
    exact (Minds.looks (looks_argumentPlace args index)).bind fun _ =>
      minds_produceResult _ _ fun _ _ => minds_modifyMemory _
  | fail message => exact .throw _
  | null => cases f.result <;> exact .pure _
  | argument index => dsimp only; split <;> exact .pure _
  | readInt index =>
    exact (Minds.looks (NativeOp.looks_argumentData _ _ _)).bind fun _ => minds_giveBack _ _ _ _
  | increment index amount =>
    refine (Minds.looks (looks_changeArgument _ _ _)).bind fun _ =>
      (Minds.looks looks_memory).bind fun _ => ?_
    split
    · exact (minds_modifyMemory _).bind fun _ => .pure none
    · exact .pure none
  | count => exact (Minds.modifyGet fun _ => rfl).bind fun _ => minds_giveBack _ _ _ _
  | world => exact (Minds.looks .get).bind fun _ => (minds_emit _).bind fun _ => .pure none
  | stack => exact (Minds.looks .get).bind fun _ => (minds_emit _).bind fun _ => .pure none
  | callback type function =>
    refine (Invoke.minds_callNamed h type function args).bind fun v => ?_
    unfold settle
    split
    · refine (minds_relocate _ _).bind fun moved => ?_
      cases moved <;> exact .pure _
    · exact .pure v
  | tryCallback type function message =>
    refine (Invoke.minds_callNamed h type function args).attempt.bind fun outcome => ?_
    have hreport : Minds O w (report outcome) := by
      cases outcome with
      | error e => exact minds_emit _
      | ok v => exact (minds_emit _).bind fun _ => minds_dropResult v
    refine hreport.bind fun _ => ?_
    cases message with
    | some text => exact .throw _
    | none => exact .pure none

theorem minds_run (h : invoke.Minds O w) (host : HostFunction) (f : Function) (args : List Value)
    (ret : Option Place) : Minds O w (host.run invoke f args ret) := by
  have hperform := minds_perform h host f args ret
  unfold run
  split
  · exact (Minds.looks (.mapM looks_document args)).bind fun _ => (minds_emit _).bind fun _ => hperform
  · exact hperform

end HostFunction

/-- Native code changes the outlook through nested calls only: it keeps what they keep. -/
def Native.Aside (native : Native) : Prop :=
  ∀ (O : Outlook → Prop) (w : Context) (invoke : Invoke), invoke.Minds O w → (native invoke).Minds O w

theorem Native.aside_builtin : Native.builtin.Aside := by
  intro O w invoke h f args ret
  dsimp only [builtin]
  cases f.body with
  | native op shape destructor => exact NativeOp.minds_run op shape destructor args ret
  | aggregate op whole => exact AggregateOp.minds_run h op whole args ret
  | host host => exact HostFunction.minds_run h host f args ret
  | script number => exact .throw _

end Flowscript
