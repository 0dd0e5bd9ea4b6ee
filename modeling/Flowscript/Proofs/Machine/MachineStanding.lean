import Flowscript.Proofs.Machine.LookupOperations
import Flowscript.Proofs.Machine.NestedInvocation
import Flowscript.Proofs.Machine.SettlingFamilies

/-! # The standing of the machine

A call borrows the machine: it takes stack, goes one level deeper, may set the world, and takes the
seat. `Machine.standing` collects what has to be given back. What a call uses up is not given back:
it is read off the meter of its interpreter, on which every step counts.

A `Pact` says where computations may run and what they keep: the standing, and meters that went on
at some pace. Code that is no script does not touch either except through nested calls, so it keeps
every pact that the calls keep; all functions that come with types and all functions of the host are
like that.
-/
namespace Flowscript

open Filter

/-- What a call has to give back of an interpreter. -/
structure Stance where
  used : Nat
  depth : Nat
  world : Option (TypeId × Place)
deriving DecidableEq

/-- What a call has to give back of the machine. -/
structure Standing where
  current : Option Seat
  stance : Seat → Stance

def Interpreter.stance (i : Interpreter) : Stance := ⟨i.stack.used, i.depth, i.world⟩

/-- What limits the calls on an interpreter, and how much of it was used up. -/
structure Meter where
  settings : Settings
  capacity : Nat
  steps : Nat
  visits : Nat

def Interpreter.meter (i : Interpreter) : Meter := ⟨i.settings, i.stack.capacity, i.steps, i.visits⟩

/-- Counts a step, and a visit if the budget allows it. -/
def Meter.tick (t : Meter) : Meter :=
  let steps := min (t.steps + 1) 0xffffffff
  if steps ≤ t.settings.maxSteps then { t with steps, visits := t.visits + 1 } else { t with steps }

namespace Machine

def standing (m : Machine) : Standing := ⟨m.current, fun seat => (m.interpreter seat).stance⟩

def meter (m : Machine) (seat : Seat) : Meter := (m.interpreter seat).meter

@[simp] theorem interpreter_modifyInterpreter (m : Machine) (seat : Seat)
    (f : Interpreter → Interpreter) :
    (m.modifyInterpreter seat f).interpreter seat = f (m.interpreter seat) := by
  cases seat <;> rfl

theorem interpreter_modifyInterpreter_of_ne (m : Machine) {seat other : Seat} (h : other ≠ seat)
    (f : Interpreter → Interpreter) :
    (m.modifyInterpreter seat f).interpreter other = m.interpreter other := by
  cases seat with
  | own =>
    cases other with
    | own => exact absurd rfl h
    | spare => rfl
  | spare =>
    cases other with
    | own => rfl
    | spare => exact absurd rfl h

@[simp] theorem current_modifyInterpreter (m : Machine) (seat : Seat)
    (f : Interpreter → Interpreter) : (m.modifyInterpreter seat f).current = m.current := by
  cases seat <;> rfl

theorem standing_modifyInterpreter (m : Machine) (seat : Seat) {f : Interpreter → Interpreter}
    (hf : (f (m.interpreter seat)).stance = (m.interpreter seat).stance) :
    (m.modifyInterpreter seat f).standing = m.standing := by
  simp only [standing, current_modifyInterpreter, Standing.mk.injEq, true_and]
  funext other
  by_cases h : other = seat
  · rw [h, interpreter_modifyInterpreter, hf]
  · rw [interpreter_modifyInterpreter_of_ne m h]

end Machine

structure Pace where
  rel : Meter → Meter → Prop
  refl : ∀ t, rel t t
  trans : ∀ {t t' t''}, rel t t' → rel t' t'' → rel t t''
  tick : ∀ t, rel t t.tick

/-- Nothing is asked of the meters. -/
def Pace.any : Pace := ⟨fun _ _ => True, fun _ => trivial, fun _ _ => trivial, fun _ => trivial⟩

namespace Machine

def Paced (r : Pace) (m m' : Machine) : Prop := ∀ seat, r.rel (m.meter seat) (m'.meter seat)

structure Kept (r : Pace) (m m' : Machine) : Prop where
  standing : m'.standing = m.standing
  paced : m.Paced r m'

variable {r : Pace} {m m' m'' : Machine} {seat : Seat} {f : Interpreter → Interpreter}

theorem Paced.refl (m : Machine) : m.Paced r m := fun _ => r.refl _

theorem Paced.trans (h : m.Paced r m') (h' : m'.Paced r m'') : m.Paced r m'' :=
  fun seat => r.trans (h seat) (h' seat)

theorem Paced.of_meter (h : m'.meter = m.meter) : m.Paced r m' := fun seat => by
  rw [h]
  exact r.refl _

theorem Paced.modifyInterpreter
    (hf : r.rel (m.interpreter seat).meter (f (m.interpreter seat)).meter) :
    m.Paced r (m.modifyInterpreter seat f) := by
  intro other
  unfold Machine.meter
  by_cases h : other = seat
  · rw [h, interpreter_modifyInterpreter]
    exact hf
  · rw [interpreter_modifyInterpreter_of_ne m h]
    exact r.refl _

theorem Kept.refl (m : Machine) : m.Kept r m := ⟨rfl, .refl m⟩

theorem Kept.trans (h : m.Kept r m') (h' : m'.Kept r m'') : m.Kept r m'' :=
  ⟨h'.standing.trans h.standing, h.paced.trans h'.paced⟩

end Machine

structure Pact (ι : Type) where
  /-- The computations settle along this filter. -/
  along : Filter ι
  [neBot : along.NeBot]
  pace : Pace
  holds : Context → Machine → Prop
  stable : ∀ {w m m'}, holds w m → m.Kept pace m' → holds w m'

attribute [instance] Pact.neBot

variable {ι ε δ α β : Type} {P : Pact ι}

/-- The computations settle wherever the pact holds, and keep the standing and the pace. -/
def Pact.Keeps (P : Pact ι) (x : ι → Exec ε α) : Prop :=
  ∀ w m, P.holds w m →
    Settles P.along x w m (fun _ m' => m.Kept P.pace m') fun _ m' => m.Kept P.pace m'

namespace Pact.Keeps

theorem ensures {x : Exec ε α} {w : Context} {m : Machine} (hx : P.Keeps fun _ => x)
    (hm : P.holds w m) :
    Ensures x w m (fun _ m' => m.Kept P.pace m') fun _ m' => m.Kept P.pace m' :=
  (hx w m hm).ensures

theorem pure (a : α) : P.Keeps (fun _ => Pure.pure a : ι → Exec ε α) := fun _ m _ =>
  .const (Machine.Kept.refl m)

theorem throw (e : ε) : P.Keeps (fun _ => MonadExcept.throw e : ι → Exec ε α) := fun _ m _ =>
  .const (Machine.Kept.refl m)

theorem looks {x : Exec ε α} (hx : Looks x) : P.Keeps fun _ => x := fun w m _ =>
  .const ((hx w m).mono (fun _ _ h => by rw [h]; exact .refl m) fun _ _ h => by rw [h]; exact .refl m)

theorem modify {f : Machine → Machine} (hf : ∀ m, (f m).standing = m.standing)
    (hf' : ∀ m, (f m).meter = m.meter) : P.Keeps (fun _ => modify f : ι → Exec ε PUnit) :=
  fun _ m _ => .const ⟨hf m, .of_meter (hf' m)⟩

theorem modifyGet {f : Machine → α × Machine} (hf : ∀ m, (f m).2.standing = m.standing)
    (hf' : ∀ m, (f m).2.meter = m.meter) : P.Keeps (fun _ => modifyGet f : ι → Exec ε α) :=
  fun _ m _ => .const ⟨hf m, .of_meter (hf' m)⟩

theorem bind {x : ι → Exec ε β} {f : ι → β → Exec ε α} (hx : P.Keeps x)
    (hf : ∀ b, P.Keeps fun i => f i b) : P.Keeps fun i => x i >>= f i := by
  intro w m hm
  refine (hx w m hm).bind fun b t ht => ?_
  exact (hf b w t (P.stable hm ht)).mono (fun _ _ => ht.trans) fun _ _ => ht.trans

theorem mapError {x : ι → Exec ε α} (f : ε → δ) (hx : P.Keeps x) :
    P.Keeps fun i => Exec.mapError f (x i) := fun w m hm =>
  Settles.exec_mapError (E := fun _ m' => m.Kept P.pace m') (hx w m hm)

theorem attempt {x : ι → Exec ε α} (hx : P.Keeps x) :
    P.Keeps (fun i => Exec.attempt (x i) : ι → Exec δ (Except ε α)) :=
  fun w m hm => (hx w m hm).exec_attempt

theorem ite {c : Prop} [Decidable c] {x y : ι → Exec ε α} (hx : P.Keeps x) (hy : P.Keeps y) :
    P.Keeps fun i => if c then x i else y i := by
  by_cases hc : c
  · simpa only [if_pos hc] using hx
  · simpa only [if_neg hc] using hy

end Pact.Keeps

namespace Exec

theorem keeps_emit (e : Event) : P.Keeps (fun _ => emit e : ι → Exec ε Unit) :=
  .modify (fun _ => rfl) fun _ => rfl

theorem keeps_modifyMemory (f : Memory → Memory) :
    P.Keeps (fun _ => modifyMemory f : ι → Exec ε Unit) := .modify (fun _ => rfl) fun _ => rfl

theorem keeps_modifyCare (f : Care → Care) :
    P.Keeps (fun _ => modifyCare f : ι → Exec ε Unit) := .modify (fun _ => rfl) fun _ => rfl

/-- What is remembered of data is no part of the standing, nor is it metered. -/
theorem keeps_watch {f : Machine → Machine} (hf : ∀ m, f m = { m with watch := (f m).watch }) :
    P.Keeps (fun _ => modify f : ι → Exec ε Unit) :=
  .modify (fun m => by rw [hf m]; rfl) fun m => by rw [hf m]; rfl

theorem keeps_allocate (l : Layout) : P.Keeps (fun _ => allocate l : ι → Exec ε Place) :=
  .modifyGet (fun _ => rfl) fun _ => rfl

theorem keeps_free (p : Place) : P.Keeps (fun _ => free p : ι → Exec ε Unit) :=
  keeps_modifyMemory _

theorem keeps_trace (severity : Severity) (note : Unit → Trace) :
    P.Keeps (fun _ => trace severity note : ι → Exec ε Unit) := by
  refine (Pact.Keeps.looks .read).bind fun w => ?_
  cases w.traceLimit with
  | none => exact .pure _
  | some limit => exact .ite (keeps_emit _) (.pure _)

theorem keeps_destroy (destructor : Option Destructor) (p : Place) :
    P.Keeps (fun _ => destroy destructor p : ι → Exec ε Unit) := by
  cases destructor with
  | none => exact .pure _
  | some d => exact .modify (fun _ => rfl) fun _ => rfl

theorem keeps_endCharge (destructor : Option Destructor) (v : Charge) :
    P.Keeps (fun _ => endCharge destructor v : ι → Exec ε Unit) :=
  (keeps_destroy _ _).bind fun _ => keeps_modifyCare _

theorem keeps_drop (v : Value) : P.Keeps (fun _ => drop v : ι → Exec ε Unit) := by
  unfold drop
  cases v.held with
  | owned place size destructor => exact (keeps_endCharge _ _).bind fun _ => keeps_free _
  | borrowed place => exact .pure _
  | pointer place => exact .pure _

theorem keeps_dropResult (result : Option Value) :
    P.Keeps (fun _ => result.forM drop : ι → Exec ε Unit) := by
  cases result with
  | none => exact .pure _
  | some v => exact keeps_drop v

theorem keeps_relocate (v : Value) (target : Place) :
    P.Keeps (fun _ => relocate v target : ι → Exec ε Bool) := by
  unfold relocate
  cases v.held with
  | owned place size destructor =>
    exact (keeps_modifyMemory _).bind fun _ => (keeps_modifyCare _).bind fun _ =>
      (keeps_free _).bind fun _ => .pure _
  | borrowed place => exact .pure _
  | pointer place => exact .pure _

theorem keeps_adopt (type : TypeId) (p : Place) (size : Nat) (destructor : Option Destructor) :
    P.Keeps (fun _ => adopt type p size destructor : ι → Exec ε Value) :=
  (keeps_modifyCare _).bind fun _ => .pure _

theorem keeps_produce (type : TypeId) (layout : Layout) (destructor : Option Destructor)
    (ret : Option Place) {init : ι → Place → Exec ε Unit}
    (h : ∀ place, P.Keeps fun i => init i place) :
    P.Keeps fun i => produce type layout destructor ret (init i) := by
  cases ret with
  | some place => exact (h place).bind fun _ => .pure _
  | none =>
    refine (keeps_allocate layout).bind fun place => (h place).attempt.bind fun outcome => ?_
    cases outcome with
    | ok u => exact (keeps_adopt _ _ _ _).bind fun _ => .pure _
    | error e => exact (keeps_free _).bind fun _ => .throw e

theorem keeps_giveBack (shape : Shape) (destructor : Option Destructor) (ret : Option Place)
    (data : List Atom) :
    P.Keeps (fun _ => giveBack shape destructor ret data : ι → Exec ε (Option Value)) :=
  keeps_produce _ _ _ _ fun _ => keeps_modifyMemory _

theorem keeps_orEnd (destructor : Option Destructor) (place : Place) {rest : ι → Exec ε Unit}
    (h : P.Keeps rest) : P.Keeps fun i => orEnd destructor place (rest i) := by
  refine h.attempt.bind fun outcome => ?_
  cases outcome with
  | ok u => exact .pure _
  | error e => exact (keeps_destroy _ _).bind fun _ => .throw e

end Exec

def Pact.Calls (P : Pact ι) (invoke : ι → Invoke) : Prop :=
  ∀ f args ret, P.Keeps fun i => invoke i f args ret

namespace Invoke

open Exec

variable {invoke : ι → Invoke}

section Calls

variable (h : P.Calls invoke)
include h

theorem keeps_callKey (t : TypeInfo) (key : FunctionKey) (args : List Value) (ret : Option Place) :
    P.Keeps fun i => callKey (invoke i) t key args ret := by
  unfold callKey
  cases t.resolve key (args.map Value.argument) with
  | ok f => exact h f args ret
  | error e => exact .throw e

theorem keeps_callNamed (type : TypeId) (name : String) (args : List Value) :
    P.Keeps fun i => callNamed (invoke i) type name args := by
  refine (Pact.Keeps.looks looks_catalogue).bind fun c => ?_
  cases c.lookup? type with
  | some t => exact keeps_callKey h t _ args none
  | none => exact .throw _

omit h in
theorem keeps_settleAt (t : TypeInfo) (target : Place) (result : Option Value) :
    P.Keeps fun _ => settleAt t target result := by
  cases result with
  | none => exact .pure _
  | some v =>
    refine (keeps_relocate v target).bind fun moved => ?_
    cases moved with
    | true => exact .pure _
    | false => exact .throw _

theorem keeps_constructAt (t : TypeInfo) (target : Place) (args : List Value) :
    P.Keeps fun i => constructAt (invoke i) t target args := by
  unfold constructAt
  exact .ite ((keeps_callKey h t _ args _).bind fun _ => keeps_settleAt t target _) (.throw _)

theorem keeps_defaultAt (t : TypeInfo) (target : Place) :
    P.Keeps fun i => defaultAt (invoke i) t target :=
  keeps_constructAt h t target []

theorem keeps_copyAt (t : TypeInfo) (target source : Place) :
    P.Keeps fun i => copyAt (invoke i) t target source :=
  keeps_constructAt h t target _

theorem keeps_moveAt (t : TypeInfo) (target source : Place) :
    P.Keeps fun i => moveAt (invoke i) t target source :=
  keeps_constructAt h t target _

theorem keeps_equals (t : TypeInfo) (a b : Place) :
    P.Keeps (fun i => equals (invoke i) t a b : ι → Exec ε (Option Bool)) := by
  unfold equals
  cases equality? t with
  | none => exact .pure _
  | some f =>
    refine (keeps_allocate _).bind fun out => (h f _ _).attempt.bind fun outcome =>
      (Pact.Keeps.looks looks_memory).bind fun mem => (keeps_free out).bind fun _ => ?_
    cases outcome with
    | error e => exact .pure _
    | ok v => exact (keeps_dropResult v).bind fun _ => .pure _

omit h in
theorem keeps_buildParts (place : α → Place) (destructor : α → Option Destructor)
    {init : ι → α → Exec CallError Unit} (hi : ∀ a, P.Keeps fun i => init i a) (parts : List α) :
    P.Keeps fun i => buildParts place destructor (init i) parts := by
  induction parts with
  | nil => exact .pure _
  | cons a rest ih => exact (hi a).bind fun _ => keeps_orEnd _ _ ih

end Calls

mutual

theorem keeps_decode (h : P.Calls invoke) (codec : Codec) (j : Json) (target : Place) :
    P.Keeps fun i => decode (invoke i) codec j target := by
  cases codec with
  | native c =>
    unfold decode
    cases c.decode j with
    | ok data => exact keeps_modifyMemory _
    | error e => exact .throw e
  | aggregate parts =>
    unfold decode
    cases j with
    | obj entries => exact keeps_decodeParts h parts entries target
    | _ => exact .throw _

theorem keeps_decodeParts (h : P.Calls invoke) (parts : List (Part × Codec))
    (entries : List (String × Json)) (target : Place) :
    P.Keeps fun i => decodeParts (invoke i) parts entries target := by
  match parts with
  | [] =>
    unfold decodeParts
    exact .pure _
  | (part, codec) :: rest =>
    -- What follows a part does not depend on how the part was read.
    have hrest := keeps_orEnd part.destructor (target.shift part.offset)
      (keeps_decodeParts h rest entries target)
    unfold decodeParts
    cases entries.lookup part.name with
    | some j => exact ((keeps_decode h codec j _).mapError _).bind fun _ => hrest
    | none =>
      cases part.default with
      | some j => exact ((keeps_decode h codec j _).mapError _).bind fun _ => hrest
      | none =>
        exact (Pact.Keeps.looks (looks_typeInfo _)).bind fun t =>
          (keeps_defaultAt h t _).bind fun _ => hrest

end

theorem keeps_decodeAt (h : P.Calls invoke) (t : TypeInfo) (j : Json) (target : Place) :
    P.Keeps fun i => decodeAt (invoke i) t j target := by
  unfold decodeAt
  cases t.codec with
  | some codec => exact keeps_decode h codec j target
  | none => exact .throw _

theorem keeps_defaultPart (h : P.Calls invoke) (part : Part) (target : Place) :
    P.Keeps fun i => defaultPart (invoke i) part target := by
  refine (Pact.Keeps.looks (looks_typeInfo _)).bind fun t => ?_
  cases part.default with
  | some j => exact (keeps_decodeAt h t j target).mapError _
  | none => exact keeps_defaultAt h t target

end Invoke

open Exec

namespace NativeOp

theorem keeps_takeData (shape : Shape) (args : List Value) (index : Nat) :
    P.Keeps fun _ => takeData shape args index :=
  (Pact.Keeps.looks (looks_changeArgument shape args index)).bind fun _ =>
    (Pact.Keeps.looks looks_memory).bind fun _ => (keeps_modifyMemory _).bind fun _ => .pure _

theorem keeps_assign (shape : Shape) (destructor : Option Destructor) (args : List Value)
    (data : List Atom) : P.Keeps fun _ => assign shape destructor args data :=
  (Pact.Keeps.looks (looks_changeArgument shape args 0)).bind fun _ =>
    (keeps_destroy _ _).bind fun _ => (keeps_modifyMemory _).bind fun _ => .pure _

theorem keeps_run (op : NativeOp) (shape : Shape) (destructor : Option Destructor)
    (args : List Value) (ret : Option Place) :
    P.Keeps fun _ => op.run shape destructor args ret := by
  have hdata := fun index => Pact.Keeps.looks (P := P) (looks_argumentData shape args index)
  cases op with
  | default => exact keeps_giveBack _ _ _ _
  | moveConstruct => exact (keeps_takeData _ _ _).bind fun _ => keeps_giveBack _ _ _ _
  | moveAssign => exact (keeps_takeData _ _ _).bind fun _ => keeps_assign _ _ _ _
  | copyConstruct => exact (hdata 0).bind fun _ => keeps_giveBack _ _ _ _
  | copyAssign => exact (hdata 1).bind fun _ => keeps_assign _ _ _ _
  | compare op => exact (hdata 0).bind fun _ => (hdata 1).bind fun _ => keeps_giveBack _ _ _ _
  | arithmetic prim op =>
    refine (hdata 0).bind fun a => (hdata 1).bind fun b => ?_
    split
    · split
      · exact keeps_giveBack _ _ _ _
      · exact .throw _
    · exact .throw _
  | concat =>
    refine (hdata 0).bind fun a => (hdata 1).bind fun b => ?_
    split <;> exact keeps_giveBack _ _ _ _
  | largest =>
    refine (hdata 0).bind fun a => (hdata 1).bind fun b => ?_
    split <;> exact keeps_giveBack _ _ _ _
  | twice =>
    refine (hdata 0).bind fun a => ?_
    split <;> exact keeps_giveBack _ _ _ _
  | byteLength =>
    refine (hdata 0).bind fun a => ?_
    split <;> exact keeps_giveBack _ _ _ _
  | startsWith =>
    refine (hdata 0).bind fun a => (hdata 1).bind fun b => ?_
    split <;> exact keeps_giveBack _ _ _ _

end NativeOp

variable {invoke : ι → Invoke}

namespace AggregateOp

theorem keeps_build (whole : Aggregate) (ret : Option Place)
    {init : ι → Part → Place → Exec CallError Unit}
    (h : ∀ part place, P.Keeps fun i => init i part place) :
    P.Keeps fun i => build whole ret (init i) :=
  keeps_produce _ _ _ _ fun _ => Invoke.keeps_buildParts _ _ (fun part => h part _) _

theorem keeps_equalParts (h : P.Calls invoke) (a b : Place) (parts : List Part) :
    P.Keeps fun i => equalParts (invoke i) a b parts := by
  induction parts with
  | nil => exact .pure _
  | cons part rest ih =>
    refine (Pact.Keeps.looks (looks_typeInfo _)).bind fun t =>
      (Invoke.keeps_equals h t _ _).bind fun equal => ?_
    cases equal with
    | none => exact .throw _
    | some equal =>
      cases equal with
      | false => exact .pure _
      | true => exact ih

theorem keeps_compare (h : P.Calls invoke) (whole : Aggregate) (expected : Bool)
    (args : List Value) (ret : Option Place) :
    P.Keeps fun i => compare (invoke i) whole expected args ret := by
  unfold compare
  rcases args.map Value.place? with _ | ⟨_ | a, _ | ⟨_ | b, _ | ⟨_, _⟩⟩⟩
  case cons.some.cons.some.nil =>
    exact (keeps_equalParts h a b _).bind fun _ => keeps_giveBack _ _ _ _
  all_goals exact .throw _

theorem keeps_run (h : P.Calls invoke) (op : AggregateOp) (whole : Aggregate)
    (args : List Value) (ret : Option Place) :
    P.Keeps fun i => op.run (invoke i) whole args ret := by
  cases op with
  | default => exact keeps_build _ _ (Invoke.keeps_defaultPart h)
  | copy =>
    exact (Pact.Keeps.looks (looks_source args)).bind fun _ => keeps_build _ _ fun _ _ =>
      (Pact.Keeps.looks (looks_typeInfo _)).bind fun t => Invoke.keeps_copyAt h t _ _
  | move =>
    refine (Pact.Keeps.looks (looks_source args)).bind fun _ => keeps_build _ _ fun _ _ =>
      (Pact.Keeps.looks (looks_typeInfo _)).bind fun t => ?_
    cases t.traits.move with
    | true => exact Invoke.keeps_moveAt h t _ _
    | false => exact Invoke.keeps_copyAt h t _ _
  | equal => exact keeps_compare h _ _ _ _
  | notEqual => exact keeps_compare h _ _ _ _

end AggregateOp

namespace HostFunction

theorem keeps_produceResult (f : Function) (ret : Option Place)
    {init : ι → TypeInfo → Place → Exec CallError Unit}
    (h : ∀ t place, P.Keeps fun i => init i t place) :
    P.Keeps fun i => produceResult f ret (init i) :=
  (Pact.Keeps.looks (looks_resultType f)).bind fun t => keeps_produce _ _ _ _ (h t)

theorem keeps_settle (ret : Option Place) (v : Option Value) : P.Keeps fun _ => settle ret v := by
  unfold settle
  split
  · refine (keeps_relocate _ _).bind fun moved => ?_
    cases moved <;> exact .pure _
  · exact .pure _

theorem keeps_report (outcome : Except CallError (Option Value)) :
    P.Keeps fun _ => report outcome := by
  cases outcome with
  | error e => exact keeps_emit _
  | ok v => exact (keeps_emit _).bind fun _ => keeps_dropResult v

theorem keeps_perform (h : P.Calls invoke) (host : HostFunction) (f : Function)
    (args : List Value) (ret : Option Place) :
    P.Keeps fun i => host.perform (invoke i) f args ret := by
  unfold perform
  cases host.outcome with
  | nothing => exact .pure _
  | decoded j => exact keeps_produceResult _ _ fun t _ => Invoke.keeps_decodeAt h t j _
  | owned j => exact keeps_produceResult _ _ fun t _ => Invoke.keeps_decodeAt h t j _
  | copy index =>
    exact (Pact.Keeps.looks (looks_argumentPlace args index)).bind fun _ =>
      keeps_produceResult _ _ fun t _ => Invoke.keeps_copyAt h t _ _
  | zeroed => exact keeps_produceResult _ _ fun _ _ => keeps_modifyMemory _
  | bytes index =>
    exact (Pact.Keeps.looks (looks_argumentPlace args index)).bind fun _ =>
      keeps_produceResult _ _ fun _ _ => keeps_modifyMemory _
  | fail message => exact .throw _
  | null =>
    cases f.result with
    | some r => exact .pure _
    | none => exact .pure _
  | argument index => dsimp only; split <;> exact .pure _
  | readInt index =>
    exact (Pact.Keeps.looks (NativeOp.looks_argumentData _ _ _)).bind fun _ => keeps_giveBack _ _ _ _
  | increment index amount =>
    refine (Pact.Keeps.looks (looks_changeArgument _ _ _)).bind fun _ =>
      (Pact.Keeps.looks looks_memory).bind fun _ => ?_
    split
    · exact (keeps_modifyMemory _).bind fun _ => .pure _
    · exact .pure _
  | count =>
    exact (Pact.Keeps.modifyGet (fun _ => rfl) fun _ => rfl).bind fun _ => keeps_giveBack _ _ _ _
  | world =>
    exact (Pact.Keeps.looks .get).bind fun _ => (keeps_emit _).bind fun _ => .pure _
  | stack =>
    exact (Pact.Keeps.looks .get).bind fun _ => (keeps_emit _).bind fun _ => .pure _
  | callback type function =>
    exact (Invoke.keeps_callNamed h type function args).bind fun _ => keeps_settle _ _
  | tryCallback type function message =>
    refine (Invoke.keeps_callNamed h type function args).attempt.bind fun outcome =>
      (keeps_report outcome).bind fun _ => ?_
    cases message with
    | some text => exact .throw _
    | none => exact .pure _

theorem keeps_run (h : P.Calls invoke) (host : HostFunction) (f : Function)
    (args : List Value) (ret : Option Place) :
    P.Keeps fun i => host.run (invoke i) f args ret := by
  have hperform := keeps_perform h host f args ret
  unfold run
  exact .ite ((Pact.Keeps.looks (.mapM looks_document args)).bind fun _ =>
    (keeps_emit _).bind fun _ => hperform) hperform

end HostFunction

/-- Native code touches the standing and the meters through nested calls only: it keeps every pact
that they keep. -/
def Native.Discreet (native : Native) : Prop :=
  ∀ {ι : Type} (P : Pact ι) (invoke : ι → Invoke), P.Calls invoke →
    P.Calls fun i => native (invoke i)

theorem Native.discreet_builtin : Native.builtin.Discreet := by
  intro ι P invoke h f args ret
  dsimp only [builtin]
  cases f.body with
  | native op shape destructor => exact NativeOp.keeps_run op shape destructor args ret
  | aggregate op whole => exact AggregateOp.keeps_run h op whole args ret
  | host host => exact HostFunction.keeps_run h host f args ret
  | script number => exact .throw _

/-- Two computations do the same wherever the standing is as given, and leave it as it was. -/
def Level (S : Standing → Prop) (x y : Exec ε α) : Prop :=
  ∀ w m, S m.standing →
    Agree x y w m (fun _ m' => m'.standing = m.standing) fun _ m' => m'.standing = m.standing

/-- Two ways to call functions do the same wherever the standing is as given, and leave it. -/
def Invoke.Level (S : Standing → Prop) (invoke invoke' : Invoke) : Prop :=
  ∀ f args ret, Flowscript.Level S (invoke f args ret) (invoke' f args ret)

/-- The pact between two computations that asks nothing of the meters. -/
def Pact.level (S : Standing → Prop) : Pact Bool where
  along := ⊤
  neBot := inferInstance
  pace := .any
  holds _ m := S m.standing
  stable hm h := h.standing ▸ hm

theorem Machine.kept_any_iff {m m' : Machine} : m.Kept .any m' ↔ m'.standing = m.standing :=
  ⟨fun h => h.standing, fun h => ⟨h, fun _ => trivial⟩⟩

theorem Level.keeps_iff {S : Standing → Prop} {x y : Exec ε α} :
    Level S x y ↔ (Pact.level S).Keeps (either x y) := by
  unfold Level Pact.Keeps
  simp only [Pact.level, Machine.kept_any_iff, Settles.agree_iff]

theorem Invoke.Level.calls_iff {S : Standing → Prop} {invoke invoke' : Invoke} :
    invoke.Level S invoke' ↔ (Pact.level S).Calls (either invoke invoke') := by
  unfold Invoke.Level Pact.Calls
  refine forall₃_congr fun f args ret => Level.keeps_iff.trans (iff_of_eq ?_)
  congr
  funext i
  cases i <;> rfl

/-- Native code touches the standing of the machine through nested calls only: with two ways to call
functions that do the same where it calls them, it does the same, and it leaves the standing if
they do. -/
def Native.Confined (native : Native) : Prop :=
  ∀ (S : Standing → Prop) (invoke invoke' : Invoke), invoke.Level S invoke' →
    (native invoke).Level S (native invoke')

theorem Native.confined_builtin : Native.builtin.Confined := by
  intro S invoke invoke' h
  have hboth := Native.discreet_builtin (Pact.level S) _ (Invoke.Level.calls_iff.mp h)
  refine Invoke.Level.calls_iff.mpr (Eq.mp (congrArg _ ?_) hboth)
  funext i
  cases i <;> rfl

end Flowscript
