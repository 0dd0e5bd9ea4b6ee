import Flowscript.Proofs.Machine.LookupOperations
import Flowscript.Proofs.Machine.NestedInvocation
import Flowscript.Proofs.Machine.ValueAccount

/-! # Computations settle the values in care

`Tidy` says of a computation on the machine which values it has in hand before and after, and that it
settles all others. Everything that constructs, copies, moves or reads values is tidy if the functions
are that it calls; so are the functions that come with types and those of the host.
-/
namespace Flowscript

open Machine (Carries)

variable {ε δ α β : Type}

/-- A computation that comes with some values in hand and leaves with others, or with none if it
fails. -/
def Tidy (before : List Charge) (x : Exec ε α) (after : α → List Charge) : Prop :=
  ∀ w m, Ensures x w m (fun r m' => Carries before (after r) m m')
    fun _ m' => Carries before [] m m'

/-- A computation that leaves the values in care and the blocks alone. -/
def Idle (x : Exec ε α) : Prop :=
  ∀ w m, Ensures x w m (fun _ m' => m'.care = m.care ∧ m'.memory.next = m.memory.next)
    fun _ m' => m'.care = m.care ∧ m'.memory.next = m.memory.next

namespace Idle

theorem looks {x : Exec ε α} (hx : Looks x) : Idle x := fun w m =>
  (hx w m).mono (fun _ _ h => by rw [h]; exact ⟨rfl, rfl⟩) fun _ _ h => by rw [h]; exact ⟨rfl, rfl⟩

theorem pure (a : α) : Idle (Pure.pure a : Exec ε α) := .looks (.pure a)

theorem bind {x : Exec ε β} {f : β → Exec ε α} (hx : Idle x) (hf : ∀ b, Idle (f b)) :
    Idle (x >>= f) := fun w m =>
  (hx w m).bind fun b t ht => (hf b w t).mono (fun _ _ h => ⟨h.1.trans ht.1, h.2.trans ht.2⟩)
    fun _ _ h => ⟨h.1.trans ht.1, h.2.trans ht.2⟩

theorem modify {f : Machine → Machine}
    (hf : ∀ m, (f m).care = m.care ∧ (f m).memory.next = m.memory.next) :
    Idle (modify f : Exec ε PUnit) := fun _ m => hf m

end Idle

namespace Tidy

variable {before : List Charge} {after : α → List Charge}

theorem pure {r : α} (h : before = after r) : Tidy before (Pure.pure r : Exec ε α) after := by
  intro w m
  rw [h]
  exact Carries.refl

theorem throw (e : ε) : Tidy [] (MonadExcept.throw e : Exec ε α) after := fun _ _ => Carries.refl

theorem bind {x : Exec ε β} {f : β → Exec ε α} {between : β → List Charge}
    (hx : Tidy before x between) (hf : ∀ b, Tidy (between b) (f b) after) :
    Tidy before (x >>= f) after := fun w m =>
  Ensures.bind_iff.mpr ((hx w m).mono
    (fun b t ht => (hf b w t).mono (fun _ _ h => ht.trans h) fun _ _ h => ht.trans h) fun _ _ h => h)

theorem idle {x : Exec ε α} (hx : Idle x) : Tidy [] x fun _ => [] := fun w m =>
  (hx w m).mono (fun _ _ h => .still h.1 (Nat.le_of_eq h.2.symm))
    fun _ _ h => .still h.1 (Nat.le_of_eq h.2.symm)

theorem looks {x : Exec ε α} (hx : Looks x) : Tidy [] x fun _ => [] := .idle (.looks hx)

theorem across {x : Exec ε α} (hx : Idle x)
    (hok : ∀ w m, Ensures x w m (fun _ _ => True) fun _ _ => False) :
    Tidy before x fun _ => before := by
  intro w m
  have hidle := hx w m
  have htotal := hok w m
  unfold Ensures at hidle htotal ⊢
  cases hr : x w m with
  | ok r m' =>
    rw [hr] at hidle
    exact .still hidle.1 (Nat.le_of_eq hidle.2.symm)
  | error e m' =>
    rw [hr] at htotal
    exact htotal.elim

theorem mapError {x : Exec ε α} (f : ε → δ) (hx : Tidy before x after) :
    Tidy before (Exec.mapError f x) after := fun w m => Ensures.exec_mapError_iff.mpr (hx w m)

theorem attempt {x : Exec ε α} (hx : Tidy before x after) :
    Tidy before (Exec.attempt x : Exec δ (Except ε α)) (outcomeCharges after) := fun w m =>
  Ensures.exec_attempt_iff.mpr (hx w m)

end Tidy

namespace Memory

@[simp] theorem next_write (m : Memory) (p : Place) (prim : Prim) (a : Atom) :
    (m.write p prim a).next = m.next := rfl

@[simp] theorem next_clear (m : Memory) (p : Place) (size : Nat) :
    (m.clear p size).next = m.next := rfl

@[simp] theorem next_transfer (m : Memory) (source target : Place) (size : Nat) :
    (m.transfer source target size).next = m.next := rfl

@[simp] theorem next_writeLeaves (m : Memory) (p : Place) (leaves : List (Nat × Prim))
    (data : List Atom) : (m.writeLeaves p leaves data).next = m.next := by
  unfold writeLeaves
  induction leaves.zip data generalizing m with
  | nil => rfl
  | cons x rest ih => exact ih _

end Memory

namespace Exec

theorem idle_emit (e : Event) : Idle (emit e : Exec ε Unit) := .modify fun _ => ⟨rfl, rfl⟩

theorem idle_modifyMemory {f : Memory → Memory} (hf : ∀ m, (f m).next = m.next) :
    Idle (modifyMemory f : Exec ε Unit) := .modify fun m => ⟨rfl, hf m.memory⟩

theorem idle_free (p : Place) : Idle (free p : Exec ε Unit) := idle_modifyMemory fun _ => rfl

theorem idle_destroy (destructor : Option Destructor) (p : Place) :
    Idle (destroy destructor p : Exec ε Unit) := by
  cases destructor with
  | none => exact .pure _
  | some d => exact .modify fun _ => ⟨rfl, rfl⟩

theorem idle_trace (severity : Severity) (note : Unit → Trace) :
    Idle (trace severity note : Exec ε Unit) := by
  refine (Idle.looks .read).bind fun w => ?_
  cases w.traceLimit with
  | none => exact .pure _
  | some limit =>
    dsimp only
    split
    · exact idle_emit _
    · exact .pure _

theorem endCharge_ensures (destructor : Option Destructor) (c : Charge) {w : Context} {m : Machine} :
    Ensures (endCharge destructor c : Exec ε Unit) w m
      (fun _ m' => m'.care = m.care.lose c ∧ m'.memory = m.memory) fun _ _ => False := by
  cases destructor with
  | none => exact ⟨rfl, rfl⟩
  | some d => exact ⟨rfl, rfl⟩

theorem tidy_allocate (l : Layout) : Tidy [] (allocate l : Exec ε Place) fun _ => [] :=
  fun _ m => .still rfl (Nat.le_succ m.memory.next)

theorem tidy_endCharge (destructor : Option Destructor) (c : Charge) :
    Tidy [c] (endCharge destructor c : Exec ε Unit) fun _ => [] := by
  intro w m
  exact (endCharge_ensures destructor c).mono
    (fun _ _ h => .lose h.1 (Nat.le_of_eq (by rw [h.2]))) fun _ _ h => h.elim

theorem tidy_drop (v : Value) :
    Tidy (resultCharges (some v)) (drop v : Exec ε Unit) fun _ => [] := by
  obtain ⟨type, form, held⟩ := v
  cases held with
  | owned place size destructor =>
    exact (tidy_endCharge destructor ⟨place, type⟩).bind fun _ => .idle (idle_free place)
  | borrowed place => exact .pure rfl
  | pointer place => exact .pure rfl

theorem tidy_dropResult (result : Option Value) :
    Tidy (resultCharges result) (result.forM drop : Exec ε Unit) fun _ => [] := by
  cases result with
  | none => exact .pure rfl
  | some v => exact tidy_drop v

/-- A value that is moved away is no longer in hand; one that cannot be moved was not. -/
theorem tidy_relocate_bind (v : Value) (target : Place) {k : Bool → Exec ε α} {after : α → List Charge}
    (hmoved : Tidy [] (k true) after)
    (hkept : resultCharges (some v) = [] → Tidy [] (k false) after) :
    Tidy (resultCharges (some v)) (relocate v target >>= k) after := by
  obtain ⟨type, form, held⟩ := v
  cases held with
  | owned place size destructor =>
    intro w m
    have hlose : Carries [⟨place, type⟩] [] m
        { m with memory := (m.memory.transfer place target size).free place.block
                 care := m.care.lose ⟨place, type⟩ } := Carries.lose rfl (Nat.le_refl _)
    exact (hmoved w _).mono (fun _ _ h => hlose.trans h) fun _ _ h => hlose.trans h
  | borrowed place => exact hkept rfl
  | pointer place => exact hkept rfl

theorem tidy_relocate (v : Value) (target : Place) :
    Tidy (resultCharges (some v)) (relocate v target : Exec ε Bool) fun _ => [] := by
  rw [← bind_pure (relocate v target)]
  exact tidy_relocate_bind v target (.pure rfl) fun _ => .pure rfl

theorem tidy_moveAway (destructor : Option Destructor) (target : Place) (c : Charge)
    {f : Memory → Memory} (hf : ∀ m, (f m).next = m.next) :
    Tidy [c] (do
      destroy destructor target
      modifyMemory f
      modifyCare (·.lose c)
      free c.place : Exec ε Unit) fun _ => [] := by
  have hlose : Tidy [c] (modifyCare (·.lose c) : Exec ε Unit) fun _ => [] :=
    fun _ _ => Carries.lose rfl (Nat.le_refl _)
  refine (Tidy.across (idle_destroy destructor target) fun w m => ?_).bind fun _ =>
    (Tidy.across (idle_modifyMemory hf) fun _ _ => trivial).bind fun _ =>
      hlose.bind fun _ => .idle (idle_free c.place)
  cases destructor <;> trivial

theorem tidy_produce (type : TypeId) (layout : Layout) (destructor : Option Destructor)
    (ret : Option Place) {init : Place → Exec ε Unit}
    (hi : ∀ place, Tidy [] (init place) fun _ => []) :
    Tidy [] (produce type layout destructor ret init) resultCharges := by
  cases ret with
  | some place => exact (hi place).bind fun _ => .pure rfl
  | none =>
    intro w m
    simp only [produce, Ensures.bind_iff, allocate, Ensures.modifyGet_iff, Ensures.exec_attempt_iff]
    refine (hi _ w _).mono (fun _ m' h => ?_) fun e m' h => ?_
    · exact Carries.take_fresh h rfl rfl rfl rfl (Nat.le_refl _)
    · refine Carries.trans (Carries.trans ?_ h) (Carries.still rfl (Nat.le_refl _))
      exact Carries.still rfl (Nat.le_succ _)

theorem tidy_giveBack (shape : Shape) (destructor : Option Destructor) (ret : Option Place)
    (data : List Atom) :
    Tidy [] (giveBack shape destructor ret data : Exec ε (Option Value)) resultCharges :=
  tidy_produce _ _ _ ret fun _ => .idle (idle_modifyMemory fun m => m.next_writeLeaves _ _ _)

theorem tidy_orEnd (destructor : Option Destructor) (place : Place) {rest : Exec ε Unit}
    (h : Tidy [] rest fun _ => []) : Tidy [] (orEnd destructor place rest) fun _ => [] := by
  refine h.attempt.bind fun outcome => ?_
  cases outcome with
  | ok u => exact .pure rfl
  | error e => exact (Tidy.idle (idle_destroy _ _)).bind fun _ => .throw e

end Exec

/-- Calls settle the values in care. -/
def Invoke.Settles (invoke : Invoke) : Prop :=
  ∀ f args ret w m, Ensures (invoke f args ret) w m
    (fun v m' => m.Leaves m' (resultCharges v)) fun _ m' => m.Leaves m' []

namespace Invoke

open Exec

variable {invoke : Invoke}

theorem settles_iff : invoke.Settles ↔ ∀ f args ret, Tidy [] (invoke f args ret) resultCharges := by
  simp only [Settles, Tidy, Carries.iff_leaves]

variable (h : invoke.Settles)
include h

theorem tidy_callKey (t : TypeInfo) (key : FunctionKey) (args : List Value) (ret : Option Place) :
    Tidy [] (callKey invoke t key args ret) resultCharges := by
  unfold callKey
  cases t.resolve key (args.map Value.argument) with
  | ok f => exact settles_iff.mp h f args ret
  | error e => exact .throw e

theorem tidy_callNamed (type : TypeId) (name : String) (args : List Value) :
    Tidy [] (callNamed invoke type name args) resultCharges := by
  refine (Tidy.looks looks_catalogue).bind fun c => ?_
  cases c.lookup? type with
  | some t => exact tidy_callKey h t _ args none
  | none => exact .throw _

omit h in
theorem tidy_settleAt (t : TypeInfo) (target : Place) (result : Option Value) :
    Tidy (resultCharges result) (settleAt t target result) fun _ => [] := by
  cases result with
  | none => exact .pure rfl
  | some v => exact tidy_relocate_bind v target (.pure rfl) fun _ => .throw _

theorem tidy_constructAt (t : TypeInfo) (target : Place) (args : List Value) :
    Tidy [] (constructAt invoke t target args) fun _ => [] := by
  unfold constructAt
  split
  · exact (tidy_callKey h t _ args _).bind fun result => tidy_settleAt t target result
  · exact .throw _

theorem tidy_defaultAt (t : TypeInfo) (target : Place) :
    Tidy [] (defaultAt invoke t target) fun _ => [] := tidy_constructAt h t target []

theorem tidy_copyAt (t : TypeInfo) (target source : Place) :
    Tidy [] (copyAt invoke t target source) fun _ => [] := tidy_constructAt h t target _

theorem tidy_moveAt (t : TypeInfo) (target source : Place) :
    Tidy [] (moveAt invoke t target source) fun _ => [] := tidy_constructAt h t target _

theorem tidy_equals (t : TypeInfo) (a b : Place) :
    Tidy [] (equals invoke t a b : Exec ε (Option Bool)) fun _ => [] := by
  unfold equals
  cases equality? t with
  | none => exact .pure rfl
  | some f =>
    refine (tidy_allocate _).bind fun out => (settles_iff.mp h f _ _).attempt.bind fun outcome =>
      (Tidy.across (.looks looks_memory) fun _ _ => trivial).bind fun _ =>
        (Tidy.across (idle_free out) fun _ _ => trivial).bind fun _ => ?_
    cases outcome with
    | error e => exact .pure rfl
    | ok v => exact (tidy_dropResult v).bind fun _ => .pure rfl

omit h in
theorem tidy_buildParts (place : α → Place) (destructor : α → Option Destructor)
    {init : α → Exec CallError Unit} (hi : ∀ a, Tidy [] (init a) fun _ => []) (parts : List α) :
    Tidy [] (buildParts place destructor init parts) fun _ => [] := by
  induction parts with
  | nil => exact .pure rfl
  | cons a rest ih =>
    exact (hi a).bind fun _ => tidy_orEnd _ _ ih

omit h

mutual

theorem tidy_decode (h : invoke.Settles) (codec : Codec) (j : Json) (target : Place) :
    Tidy [] (decode invoke codec j target) fun _ => [] := by
  cases codec with
  | native c =>
    unfold decode
    cases c.decode j with
    | ok data => exact .idle (idle_modifyMemory fun m => m.next_writeLeaves _ _ _)
    | error e => exact .throw e
  | aggregate parts =>
    unfold decode
    cases j with
    | obj entries => exact tidy_decodeParts h parts entries target
    | _ => exact .throw _

theorem tidy_decodeParts (h : invoke.Settles) (parts : List (Part × Codec))
    (entries : List (String × Json)) (target : Place) :
    Tidy [] (decodeParts invoke parts entries target) fun _ => [] := by
  match parts with
  | [] =>
    unfold decodeParts
    exact .pure rfl
  | (part, codec) :: rest =>
    have hrest := tidy_orEnd part.destructor (target.shift part.offset)
      (tidy_decodeParts h rest entries target)
    unfold decodeParts
    cases entries.lookup part.name with
    | some j => exact ((tidy_decode h codec j _).mapError _).bind fun _ => hrest
    | none =>
      cases part.default with
      | some j => exact ((tidy_decode h codec j _).mapError _).bind fun _ => hrest
      | none =>
        exact (Tidy.looks (looks_typeInfo _)).bind fun t => (tidy_defaultAt h t _).bind fun _ => hrest

end

theorem tidy_decodeAt (h : invoke.Settles) (t : TypeInfo) (j : Json) (target : Place) :
    Tidy [] (decodeAt invoke t j target) fun _ => [] := by
  unfold decodeAt
  cases t.codec with
  | some codec => exact tidy_decode h codec j target
  | none => exact .throw _

theorem tidy_defaultPart (h : invoke.Settles) (part : Part) (target : Place) :
    Tidy [] (defaultPart invoke part target) fun _ => [] := by
  refine (Tidy.looks (looks_typeInfo _)).bind fun t => ?_
  cases part.default with
  | some j => exact (tidy_decodeAt h t j target).mapError _
  | none => exact tidy_defaultAt h t target

end Invoke

open Exec

namespace NativeOp

theorem idle_takeData (shape : Shape) (args : List Value) (index : Nat) :
    Idle (takeData shape args index) :=
  (Idle.looks (looks_changeArgument shape args index)).bind fun _ =>
    (Idle.looks looks_memory).bind fun _ =>
    (idle_modifyMemory fun m => m.next_writeLeaves _ _ _).bind fun _ => .pure _

theorem tidy_assign (shape : Shape) (destructor : Option Destructor) (args : List Value)
    (data : List Atom) : Tidy [] (assign shape destructor args data) resultCharges := by
  exact (Tidy.looks (looks_changeArgument shape args 0)).bind fun place =>
    (Tidy.idle (idle_destroy _ _)).bind fun _ =>
      (Tidy.idle (idle_modifyMemory fun m => m.next_writeLeaves _ _ _)).bind fun _ => .pure rfl

theorem tidy_run (op : NativeOp) (shape : Shape) (destructor : Option Destructor)
    (args : List Value) (ret : Option Place) :
    Tidy [] (op.run shape destructor args ret) resultCharges := by
  have hdata : ∀ index, Tidy [] (argumentData shape args index) fun _ => [] :=
    fun index => .looks (looks_argumentData shape args index)
  have htake : ∀ index, Tidy [] (takeData shape args index) fun _ => [] :=
    fun index => .idle (idle_takeData shape args index)
  cases op with
  | default => exact tidy_giveBack _ _ _ _
  | moveConstruct => exact (htake 0).bind fun _ => tidy_giveBack _ _ _ _
  | moveAssign => exact (htake 1).bind fun _ => tidy_assign _ _ _ _
  | copyConstruct => exact (hdata 0).bind fun _ => tidy_giveBack _ _ _ _
  | copyAssign => exact (hdata 1).bind fun _ => tidy_assign _ _ _ _
  | compare op => exact (hdata 0).bind fun _ => (hdata 1).bind fun _ => tidy_giveBack _ _ _ _
  | arithmetic prim op =>
    refine (hdata 0).bind fun a => (hdata 1).bind fun b => ?_
    split
    · split
      · exact tidy_giveBack _ _ _ _
      · exact .throw _
    · exact .throw _
  | concat =>
    refine (hdata 0).bind fun a => (hdata 1).bind fun b => ?_
    split <;> exact tidy_giveBack _ _ _ _
  | largest =>
    refine (hdata 0).bind fun a => (hdata 1).bind fun b => ?_
    split <;> exact tidy_giveBack _ _ _ _
  | twice =>
    refine (hdata 0).bind fun a => ?_
    split <;> exact tidy_giveBack _ _ _ _
  | byteLength =>
    refine (hdata 0).bind fun a => ?_
    split <;> exact tidy_giveBack _ _ _ _
  | startsWith =>
    refine (hdata 0).bind fun a => (hdata 1).bind fun b => ?_
    split <;> exact tidy_giveBack _ _ _ _

end NativeOp

variable {invoke : Invoke}

namespace AggregateOp

theorem tidy_build (whole : Aggregate) (ret : Option Place)
    {init : Part → Place → Exec CallError Unit}
    (h : ∀ part place, Tidy [] (init part place) fun _ => []) :
    Tidy [] (build whole ret init) resultCharges :=
  tidy_produce _ _ _ ret fun _ => Invoke.tidy_buildParts _ _ (fun part => h part _) _

theorem tidy_equalParts (h : invoke.Settles) (a b : Place) (parts : List Part) :
    Tidy [] (equalParts invoke a b parts) fun _ => [] := by
  induction parts with
  | nil => exact .pure rfl
  | cons part rest ih =>
    refine (Tidy.looks (looks_typeInfo _)).bind fun t =>
      (Invoke.tidy_equals h t _ _).bind fun equal => ?_
    cases equal with
    | none => exact .throw _
    | some equal =>
      cases equal with
      | false => exact .pure rfl
      | true => exact ih

theorem tidy_compare (h : invoke.Settles) (whole : Aggregate) (expected : Bool)
    (args : List Value) (ret : Option Place) :
    Tidy [] (compare invoke whole expected args ret) resultCharges := by
  unfold compare
  split
  · exact (tidy_equalParts h _ _ _).bind fun _ => tidy_giveBack _ _ _ _
  · exact .throw _

theorem tidy_run (h : invoke.Settles) (op : AggregateOp) (whole : Aggregate)
    (args : List Value) (ret : Option Place) :
    Tidy [] (op.run invoke whole args ret) resultCharges := by
  cases op with
  | default => exact tidy_build _ _ (Invoke.tidy_defaultPart h)
  | copy =>
    exact (Tidy.looks (looks_source args)).bind fun _ => tidy_build _ _ fun _ _ =>
      (Tidy.looks (looks_typeInfo _)).bind fun t => Invoke.tidy_copyAt h t _ _
  | move =>
    refine (Tidy.looks (looks_source args)).bind fun _ => tidy_build _ _ fun _ _ =>
      (Tidy.looks (looks_typeInfo _)).bind fun t => ?_
    cases t.traits.move with
    | true => exact Invoke.tidy_moveAt h t _ _
    | false => exact Invoke.tidy_copyAt h t _ _
  | equal => exact tidy_compare h _ _ _ _
  | notEqual => exact tidy_compare h _ _ _ _

end AggregateOp

namespace HostFunction

theorem tidy_produceResult (f : Function) (ret : Option Place)
    {init : TypeInfo → Place → Exec CallError Unit}
    (h : ∀ t place, Tidy [] (init t place) fun _ => []) :
    Tidy [] (produceResult f ret init) resultCharges := by
  exact (Tidy.looks (looks_resultType f)).bind fun t => tidy_produce _ _ _ ret (h t)

/-- A result with storage of its own is given to the caller, in one way or the other. -/
theorem tidy_settle (ret : Option Place) (v : Option Value) :
    Tidy (resultCharges v) (settle ret v) resultCharges := by
  unfold settle
  split
  · exact tidy_relocate_bind _ _ (.pure rfl) fun hv => .pure hv.symm
  · exact .pure rfl

theorem tidy_report (outcome : Except CallError (Option Value)) :
    Tidy (outcomeCharges resultCharges outcome) (report outcome) fun _ => [] := by
  cases outcome with
  | error e => exact .idle (idle_emit _)
  | ok v => exact (Tidy.across (idle_emit _) fun _ _ => trivial).bind fun _ => tidy_dropResult v

theorem tidy_perform (h : invoke.Settles) (host : HostFunction) (f : Function)
    (args : List Value) (ret : Option Place) :
    Tidy [] (host.perform invoke f args ret) resultCharges := by
  have hplace : ∀ index, Tidy [] (argumentPlace args index) fun _ => [] :=
    fun index => .looks (looks_argumentPlace args index)
  have hemit : ∀ e, Tidy [] (emit e : Exec CallError Unit) fun _ => [] :=
    fun e => .idle (idle_emit e)
  unfold perform
  cases host.outcome with
  | nothing => exact .pure rfl
  | decoded j => exact tidy_produceResult _ _ fun t _ => Invoke.tidy_decodeAt h t j _
  | owned j => exact tidy_produceResult _ _ fun t _ => Invoke.tidy_decodeAt h t j _
  | copy index =>
    exact (hplace index).bind fun _ => tidy_produceResult _ _ fun t _ => Invoke.tidy_copyAt h t _ _
  | zeroed =>
    exact tidy_produceResult _ _ fun _ _ => .idle (idle_modifyMemory fun m => m.next_clear _ _)
  | bytes index =>
    exact (hplace index).bind fun _ =>
      tidy_produceResult _ _ fun _ _ => .idle (idle_modifyMemory fun m => m.next_transfer _ _ _)
  | fail message => exact .throw _
  | null =>
    cases f.result with
    | some r => exact .pure rfl
    | none => exact .pure rfl
  | argument index =>
    dsimp only
    split
    · exact .pure (resultCharges_view _ _).symm
    · exact .pure rfl
  | readInt index =>
    exact (Tidy.looks (NativeOp.looks_argumentData _ _ _)).bind fun _ => tidy_giveBack _ _ _ _
  | increment index amount =>
    refine (Tidy.looks (looks_changeArgument _ _ _)).bind fun _ =>
      (Tidy.looks looks_memory).bind fun _ => ?_
    split
    · exact (Tidy.idle (idle_modifyMemory fun m => m.next_write _ _ _)).bind fun _ => .pure rfl
    · exact .pure rfl
  | count =>
    have hcount : Idle (countCall host.counter) := fun _ _ => ⟨rfl, rfl⟩
    exact (Tidy.idle hcount).bind fun _ => tidy_giveBack _ _ _ _
  | world => exact (Tidy.looks .get).bind fun _ => (hemit _).bind fun _ => .pure rfl
  | stack => exact (Tidy.looks .get).bind fun _ => (hemit _).bind fun _ => .pure rfl
  | callback type function =>
    exact (Invoke.tidy_callNamed h type function args).bind fun v => tidy_settle ret v
  | tryCallback type function message =>
    refine (Invoke.tidy_callNamed h type function args).attempt.bind fun outcome =>
      (tidy_report outcome).bind fun _ => ?_
    cases message with
    | some text => exact .throw _
    | none => exact .pure rfl

theorem tidy_run (h : invoke.Settles) (host : HostFunction) (f : Function)
    (args : List Value) (ret : Option Place) :
    Tidy [] (host.run invoke f args ret) resultCharges := by
  unfold run
  dsimp only
  split
  · exact (Tidy.looks (.mapM looks_document args)).bind fun _ =>
      (Tidy.idle (idle_emit _)).bind fun _ => tidy_perform h host f args ret
  · exact tidy_perform h host f args ret

end HostFunction

/-- Native code settles the values in care if the functions do that it calls. -/
def Native.Settles (native : Native) : Prop :=
  ∀ invoke : Invoke, invoke.Settles → (native invoke).Settles

/-- Functions that come with types and functions of the host settle. -/
theorem Native.settles_builtin : Native.builtin.Settles := by
  intro invoke h
  refine Invoke.settles_iff.mpr fun f args ret => ?_
  unfold builtin
  cases f.body with
  | native op shape destructor => exact NativeOp.tidy_run op shape destructor args ret
  | aggregate op whole => exact AggregateOp.tidy_run h op whole args ret
  | host host => exact HostFunction.tidy_run h host f args ret
  | script number => exact .throw _

end Flowscript
