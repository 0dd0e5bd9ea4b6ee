import Flowscript.Proofs.Machine.OutcomeLogic

/-! # Looking things up

Many computations change nothing: they look up types, arguments, nodes, pins and storage, or fail. The
one that takes room on the stack is described here too.
-/
namespace Flowscript

variable {ρ ε σ α β : Type}

def Looks (x : ReaderT ρ (EStateM ε σ) α) : Prop :=
  ∀ r s, Ensures x r s (fun _ t => t = s) fun _ t => t = s

namespace Looks

theorem pure (a : α) : Looks (Pure.pure a : ReaderT ρ (EStateM ε σ) α) := fun _ _ => rfl

theorem throw (e : ε) : Looks (MonadExcept.throw e : ReaderT ρ (EStateM ε σ) α) := fun _ _ => rfl

theorem read : Looks (MonadReader.read : ReaderT ρ (EStateM ε σ) ρ) := fun _ _ => rfl

theorem get : Looks (MonadState.get : ReaderT ρ (EStateM ε σ) σ) := fun _ _ => rfl

theorem bind {x : ReaderT ρ (EStateM ε σ) β} {f : β → ReaderT ρ (EStateM ε σ) α} (hx : Looks x)
    (hf : ∀ b, Looks (f b)) : Looks (x >>= f) := by
  intro r s
  refine (hx r s).bind fun b t ht => ?_
  rw [ht]
  exact hf b r s

theorem mapM {f : β → ReaderT ρ (EStateM ε σ) α} (hf : ∀ b, Looks (f b)) (bs : List β) :
    Looks (bs.mapM f) := by
  induction bs with
  | nil => exact .pure _
  | cons b bs ih =>
    rw [List.mapM_cons]
    exact (hf b).bind fun _ => ih.bind fun _ => .pure _

end Looks

namespace Exec

theorem looks_catalogue : Looks (catalogue : Exec ε Catalogue) := fun _ _ => rfl

theorem looks_typeInfo (h : Handle) : Looks (typeInfo h : Exec ε TypeInfo) := fun _ _ => rfl

theorem looks_memory : Looks (memory : Exec ε Memory) := fun _ _ => rfl

theorem looks_document (v : Value) : Looks (document v : Exec ε Json) := by
  unfold document
  cases v.place? with
  | none => exact .pure _
  | some place =>
    refine looks_catalogue.bind fun c => ?_
    cases (c.lookup? v.type).bind (·.codec) with
    | some codec => exact looks_memory.bind fun _ => .pure _
    | none => exact .pure _

end Exec

open Exec

theorem looks_readArgument (shape : Shape) (args : List Value) (index : Nat) :
    Looks (readArgument shape args index) := by
  unfold readArgument
  cases args[index]? with
  | none => exact .throw _
  | some v =>
    dsimp only
    cases v.place? with
    | none => exact .throw _
    | some place =>
      dsimp only
      split
      · exact .pure _
      · exact .throw _

theorem looks_changeArgument (shape : Shape) (args : List Value) (index : Nat) :
    Looks (changeArgument shape args index) := by
  unfold changeArgument
  cases args[index]? with
  | none => exact .throw _
  | some v =>
    dsimp only
    cases v.place? with
    | none => exact .throw _
    | some place =>
      dsimp only
      split
      · exact .pure _
      · exact .throw _

theorem NativeOp.looks_argumentData (shape : Shape) (args : List Value) (index : Nat) :
    Looks (argumentData shape args index) :=
  (looks_readArgument shape args index).bind fun _ => looks_memory.bind fun _ => .pure _

theorem AggregateOp.looks_source (args : List Value) : Looks (source args) := by
  unfold source
  cases args.head?.bind Value.place? with
  | none => exact .throw _
  | some place => exact .pure _

namespace HostFunction

theorem looks_resultType (f : Function) : Looks (resultType f) := by
  refine looks_catalogue.bind fun c => ?_
  cases f.result.bind fun r => c.lookup? r.type with
  | some t => exact .pure _
  | none => exact .throw _

theorem looks_argumentPlace (args : List Value) (index : Nat) : Looks (argumentPlace args index) := by
  unfold argumentPlace
  cases args[index]?.bind Value.place? with
  | none => exact .throw _
  | some place => exact .pure _

end HostFunction

namespace Machine

@[simp] theorem memory_modifyInterpreter (m : Machine) (seat : Seat)
    (f : Interpreter → Interpreter) : (m.modifyInterpreter seat f).memory = m.memory := by
  cases seat <;> rfl

@[simp] theorem care_modifyInterpreter (m : Machine) (seat : Seat)
    (f : Interpreter → Interpreter) : (m.modifyInterpreter seat f).care = m.care := by
  cases seat <;> rfl

@[simp] theorem counts_modifyInterpreter (m : Machine) (seat : Seat)
    (f : Interpreter → Interpreter) : (m.modifyInterpreter seat f).counts = m.counts := by
  cases seat <;> rfl

/-- Whatever is remembered of a result, nothing else changes. -/
theorem watchResult_eq (m : Machine) (result : Option Value) :
    m.watchResult result = { m with watch := (m.watchResult result).watch } := by
  unfold watchResult
  cases result with
  | none => rfl
  | some v =>
    dsimp only
    split
    · rfl
    · cases v.place? with
      | none => rfl
      | some place =>
        unfold watchReference
        dsimp only
        split <;> rfl

@[simp] theorem care_watchResult (m : Machine) (result : Option Value) :
    (m.watchResult result).care = m.care := by
  rw [watchResult_eq]

@[simp] theorem memory_watchResult (m : Machine) (result : Option Value) :
    (m.watchResult result).memory = m.memory := by
  rw [watchResult_eq]

end Machine

namespace Run

theorem looks_frame : Looks frame := fun _ _ => rfl

theorem looks_program : Looks program := fun _ _ => rfl

theorem looks_interpreter : Looks interpreter := fun _ _ => rfl

theorem looks_memory : Looks memory := fun _ _ => rfl

theorem looks_node (id : NodeId) : Looks (node id) := by
  refine looks_program.bind fun p => ?_
  cases p.node? id with
  | some n => exact .pure n
  | none => exact .throw _

theorem looks_pin (id : PinId) : Looks (pin id) := by
  refine looks_program.bind fun p => ?_
  cases p.pin? id with
  | some n => exact .pure n
  | none => exact .throw _

theorem looks_pinType (id : PinId) : Looks (pinType id) := by
  refine (looks_pin id).bind fun p => ?_
  cases p.type with
  | some h => exact Looks.read.bind fun _ => .pure _
  | none => exact .throw _

theorem looks_nth (pins : List PinId) (index : Nat) : Looks (nth pins index) := by
  unfold nth
  cases pins[index]? with
  | some id => exact .pure id
  | none => exact .throw _

theorem looks_target (output : PinId) : Looks (target output) :=
  (looks_pin output).bind fun _ => .pure _

theorem looks_storage? (id : PinId) : Looks (storage? id) :=
  looks_frame.bind fun _ => looks_program.bind fun _ => .pure _

theorem looks_storage (id : PinId) (missing : String) : Looks (storage id missing) := by
  refine (looks_storage? id).bind fun place => ?_
  cases place with
  | some place => exact .pure place
  | none => exact .throw _

theorem looks_charge? (id : PinId) : Looks (charge? id) :=
  Looks.read.bind fun _ => looks_frame.bind fun _ => .pure _

theorem looks_readInt (id : PinId) : Looks (readInt id) := by
  refine looks_frame.bind fun f => looks_program.bind fun p => ?_
  cases f.value? p id with
  | none => exact .pure _
  | some place =>
    refine looks_memory.bind fun m => ?_
    cases m.read place (.int .i32) <;> exact .pure _

theorem looks_expectType (id : PinId) (name : String) : Looks (expectType id name) := by
  refine (looks_pinType id).bind fun t => ?_
  split
  · exact .throw _
  · exact .pure _

/-- Room on the stack is a block of its own, at the address the stack has given. -/
theorem allocTemp_ensures {l : Layout} {sc : Scope} {a : Activation}
    {Q : Option Place → Activation → Prop} {E : ScriptError → Activation → Prop}
    (hnone : (a.machine.interpreter sc.seat).stack.alloc? l = none → Q none a)
    (hsome : ∀ start stack, (a.machine.interpreter sc.seat).stack.alloc? l = some (start, stack) →
      Q (some ⟨a.machine.memory.next, 0, .stack start⟩) ⟨a.frame,
        { a.machine.modifyInterpreter sc.seat fun i => { i with stack } with
          memory := { a.machine.memory with next := a.machine.memory.next + 1 } }⟩) :
    Ensures (allocTemp l) sc a Q E := by
  simp only [allocTemp, Ensures.bind_iff, Ensures.run_interpreter_iff]
  cases h : (a.machine.interpreter sc.seat).stack.alloc? l with
  | none => exact hnone h
  | some taken =>
    obtain ⟨start, stack⟩ := taken
    have hs := hsome start stack h
    rw [← a.machine.memory_modifyInterpreter sc.seat fun i => { i with stack }] at hs
    exact hs

end Run

end Flowscript
