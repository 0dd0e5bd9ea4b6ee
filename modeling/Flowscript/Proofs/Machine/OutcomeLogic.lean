import Flowscript.Run.Execute

/-! # Reasoning about computations

Computations on the machine and of running calls read something, change a state and either succeed or
fail. `Ensures` says what holds of the outcome; its laws take a computation apart along its text. `Agree`
says besides that another computation has the same outcome.
The laws of the machine's and of a call's own operations are stated once, so that no later proof opens
them.
-/
namespace Flowscript

variable {ρ ε σ α β : Type}

section Bind

variable {x : ReaderT ρ (EStateM ε σ) β} {f : β → ReaderT ρ (EStateM ε σ) α} {r : ρ} {s t : σ}

theorem bind_of_ok {b : β} (h : x r s = .ok b t) : (x >>= f) r s = f b r t := by
  simp only [bind, ReaderT.bind, EStateM.bind, h]

theorem bind_of_error {e : ε} (h : x r s = .error e t) : (x >>= f) r s = .error e t := by
  simp only [bind, ReaderT.bind, EStateM.bind, h]

/-- A computation in steps succeeds only if each step does. -/
theorem exists_of_bind_ok {a : α} (h : (x >>= f) r s = .ok a t) :
    ∃ b u, x r s = .ok b u ∧ f b r u = .ok a t := by
  cases hx : x r s with
  | ok b u =>
    rw [bind_of_ok hx] at h
    exact ⟨b, u, rfl, h⟩
  | error e u =>
    rw [bind_of_error hx] at h
    cases h

end Bind

/-- What holds of a result and the state after success, and of an error and the state after failure. -/
def Ensures (x : ReaderT ρ (EStateM ε σ) α) (r : ρ) (s : σ) (Q : α → σ → Prop)
    (E : ε → σ → Prop) : Prop :=
  match x r s with
  | .ok a s => Q a s
  | .error e s => E e s

namespace Ensures

variable {r : ρ} {s : σ} {Q Q' : α → σ → Prop} {E E' : ε → σ → Prop}

theorem mono {x : ReaderT ρ (EStateM ε σ) α} (h : Ensures x r s Q E)
    (hQ : ∀ a s, Q a s → Q' a s) (hE : ∀ e s, E e s → E' e s) : Ensures x r s Q' E' := by
  unfold Ensures at h ⊢
  cases hx : x r s with
  | ok a t => rw [hx] at h; exact hQ a t h
  | error e t => rw [hx] at h; exact hE e t h

theorem of_ok {x : ReaderT ρ (EStateM ε σ) α} {a : α} {t : σ} (hx : x r s = .ok a t) (h : Q a t) :
    Ensures x r s Q E := by
  unfold Ensures
  rw [hx]
  exact h

theorem iff_of_ok {x : ReaderT ρ (EStateM ε σ) α} {a : α} {t : σ} (hx : x r s = .ok a t) :
    Ensures x r s Q E ↔ Q a t := by
  unfold Ensures
  rw [hx]

theorem of_forall {x : ReaderT ρ (EStateM ε σ) α} (hQ : ∀ a t, Q a t) (hE : ∀ e t, E e t) :
    Ensures x r s Q E := by
  unfold Ensures
  split
  · exact hQ _ _
  · exact hE _ _

theorem not_false {x : ReaderT ρ (EStateM ε σ) α} :
    ¬ Ensures x r s (fun _ _ => False) fun _ _ => False := by
  unfold Ensures
  cases x r s <;> exact id

theorem and {x : ReaderT ρ (EStateM ε σ) α} (h : Ensures x r s Q E) (h' : Ensures x r s Q' E') :
    Ensures x r s (fun a t => Q a t ∧ Q' a t) fun e t => E e t ∧ E' e t := by
  unfold Ensures at *
  cases hx : x r s with
  | ok a t => rw [hx] at h h'; exact ⟨h, h'⟩
  | error e t => rw [hx] at h h'; exact ⟨h, h'⟩

theorem ok {x : ReaderT ρ (EStateM ε σ) α} {a : α} {t : σ} (h : Ensures x r s Q E)
    (hx : x r s = .ok a t) : Q a t := by
  unfold Ensures at h
  rw [hx] at h
  exact h

theorem error {x : ReaderT ρ (EStateM ε σ) α} {e : ε} {t : σ} (h : Ensures x r s Q E)
    (hx : x r s = .error e t) : E e t := by
  unfold Ensures at h
  rw [hx] at h
  exact h

@[simp] theorem pure_iff {a : α} :
    Ensures (pure a : ReaderT ρ (EStateM ε σ) α) r s Q E ↔ Q a s := Iff.rfl

@[simp] theorem throw_iff {e : ε} :
    Ensures (throw e : ReaderT ρ (EStateM ε σ) α) r s Q E ↔ E e s := Iff.rfl

@[simp] theorem bind_iff {x : ReaderT ρ (EStateM ε σ) β} {f : β → ReaderT ρ (EStateM ε σ) α} :
    Ensures (x >>= f) r s Q E ↔ Ensures x r s (fun b t => Ensures (f b) r t Q E) E := by
  simp only [Ensures, bind, ReaderT.bind, EStateM.bind]
  cases x r s <;> rfl

@[simp] theorem map_iff {x : ReaderT ρ (EStateM ε σ) β} {f : β → α} :
    Ensures (f <$> x) r s Q E ↔ Ensures x r s (fun b t => Q (f b) t) E := by
  rw [map_eq_pure_bind, bind_iff]
  rfl

@[simp] theorem read_iff {Q : ρ → σ → Prop} :
    Ensures (read : ReaderT ρ (EStateM ε σ) ρ) r s Q E ↔ Q r s := Iff.rfl

@[simp] theorem get_iff {Q : σ → σ → Prop} :
    Ensures (get : ReaderT ρ (EStateM ε σ) σ) r s Q E ↔ Q s s := Iff.rfl

@[simp] theorem modify_iff {f : σ → σ} {Q : PUnit → σ → Prop} :
    Ensures (modify f : ReaderT ρ (EStateM ε σ) PUnit) r s Q E ↔ Q ⟨⟩ (f s) := Iff.rfl

@[simp] theorem modifyGet_iff {f : σ → α × σ} :
    Ensures (modifyGet f : ReaderT ρ (EStateM ε σ) α) r s Q E ↔ Q (f s).1 (f s).2 := Iff.rfl

/-- A computation in steps: what the first ensures, and what the rest makes of it. -/
theorem bind {x : ReaderT ρ (EStateM ε σ) β} {f : β → ReaderT ρ (EStateM ε σ) α}
    {P : β → σ → Prop} (hx : Ensures x r s P E)
    (hf : ∀ b t, P b t → Ensures (f b) r t Q E) : Ensures (x >>= f) r s Q E :=
  bind_iff.mpr (hx.mono hf fun _ _ h => h)

section Exec

variable {δ : Type} {w : Context} {m : Machine}

@[simp] theorem exec_mapError_iff {f : ε → δ} {x : Exec ε α} {Q : α → Machine → Prop}
    {E : δ → Machine → Prop} :
    Ensures (Exec.mapError f x) w m Q E ↔ Ensures x w m Q fun e => E (f e) := by
  simp only [Ensures, Exec.mapError]
  cases x w m <;> rfl

@[simp] theorem exec_attempt_iff {x : Exec ε α} {Q : Except ε α → Machine → Prop}
    {E : δ → Machine → Prop} :
    Ensures (Exec.attempt x) w m Q E ↔
      Ensures x w m (fun a => Q (.ok a)) fun e => Q (.error e) := by
  simp only [Ensures, Exec.attempt]
  cases x w m <;> rfl

@[simp] theorem exec_ofTotal_iff {x : Exec Empty α} {Q : α → Machine → Prop}
    {E : ε → Machine → Prop} :
    Ensures (Exec.ofTotal x) w m Q E ↔ Ensures x w m Q fun _ _ => True := by
  simp only [Ensures, Exec.ofTotal]
  cases x w m with
  | ok => rfl
  | error e => cases e

variable {Q : Unit → Machine → Prop} {E : ε → Machine → Prop}

@[simp] theorem exec_emit_iff {e : Event} :
    Ensures (Exec.emit e) w m Q E ↔ Q () { m with journal := e :: m.journal } := Iff.rfl

@[simp] theorem exec_modifyMemory_iff {f : Memory → Memory} :
    Ensures (Exec.modifyMemory f) w m Q E ↔ Q () { m with memory := f m.memory } := Iff.rfl

@[simp] theorem exec_modifyCare_iff {f : Care → Care} :
    Ensures (Exec.modifyCare f) w m Q E ↔ Q () { m with care := f m.care } := Iff.rfl

@[simp] theorem exec_catalogue_iff {Q : Catalogue → Machine → Prop} :
    Ensures Exec.catalogue w m Q E ↔ Q w.catalogue m := Iff.rfl

@[simp] theorem exec_memory_iff {Q : Memory → Machine → Prop} :
    Ensures Exec.memory w m Q E ↔ Q m.memory m := Iff.rfl

@[simp] theorem exec_typeInfo_iff {h : Handle} {Q : TypeInfo → Machine → Prop} :
    Ensures (Exec.typeInfo h) w m Q E ↔ Q (w.catalogue.info h) m := Iff.rfl

end Exec

section Run

variable {sc : Scope} {a : Activation} {Q : α → Activation → Prop}
  {E : ScriptError → Activation → Prop}

@[simp] theorem run_lift_iff {f : ε → ScriptError} {x : Exec ε α} :
    Ensures (Run.lift f x) sc a Q E ↔
      Ensures x sc.context a.machine (fun r m => Q r ⟨a.frame, m⟩)
        fun e m => E (f e) ⟨a.frame, m⟩ := by
  simp only [Ensures, Run.lift]
  cases x sc.context a.machine <;> rfl

@[simp] theorem run_liftTotal_iff {x : Exec Empty α} :
    Ensures (Run.liftTotal x) sc a Q E ↔
      Ensures x sc.context a.machine (fun r m => Q r ⟨a.frame, m⟩) fun _ _ => True := by
  simp only [Ensures, Run.liftTotal]
  cases x sc.context a.machine with
  | ok => rfl
  | error e => cases e

@[simp] theorem run_andFinally_iff {x : Run α} {after : Exec Empty Unit} :
    Ensures (x.andFinally after) sc a Q E ↔
      Ensures x sc a
        (fun r b => Ensures after sc.context b.machine (fun _ m => Q r ⟨b.frame, m⟩) fun _ _ => True)
        fun e b =>
          Ensures after sc.context b.machine (fun _ m => E e ⟨b.frame, m⟩) fun _ _ => True := by
  simp only [Ensures, Run.andFinally]
  cases x sc a with
  | ok r b =>
    dsimp only
    cases after sc.context b.machine with
    | ok => rfl
    | error e => cases e
  | error e b =>
    dsimp only
    cases after sc.context b.machine with
    | ok => rfl
    | error e => cases e

@[simp] theorem run_mapError_iff {f : ScriptError → ScriptError} {x : Run α} :
    Ensures (x.mapError f) sc a Q E ↔ Ensures x sc a Q fun e => E (f e) := by
  simp only [Ensures, Run.mapError]
  cases x sc a <;> rfl

@[simp] theorem run_attempt_iff {x : Run α} {Q : Except ScriptError α → Activation → Prop} :
    Ensures x.attempt sc a Q E ↔ Ensures x sc a (fun r => Q (.ok r)) fun e => Q (.error e) := by
  simp only [Ensures, Run.attempt]
  cases x sc a <;> rfl

@[simp] theorem run_frame_iff {Q : Frame → Activation → Prop} :
    Ensures Run.frame sc a Q E ↔ Q a.frame a := Iff.rfl

@[simp] theorem run_modifyFrame_iff {f : Frame → Frame} {Q : Unit → Activation → Prop} :
    Ensures (Run.modifyFrame f) sc a Q E ↔ Q () ⟨f a.frame, a.machine⟩ := Iff.rfl

@[simp] theorem run_program_iff {Q : Program → Activation → Prop} :
    Ensures Run.program sc a Q E ↔ Q sc.program a := Iff.rfl

@[simp] theorem run_interpreter_iff {Q : Interpreter → Activation → Prop} :
    Ensures Run.interpreter sc a Q E ↔ Q (a.machine.interpreter sc.seat) a := Iff.rfl

@[simp] theorem run_modifyInterpreter_iff {f : Interpreter → Interpreter}
    {Q : Unit → Activation → Prop} :
    Ensures (Run.modifyInterpreter f) sc a Q E ↔
      Q () ⟨a.frame, a.machine.modifyInterpreter sc.seat f⟩ := Iff.rfl

@[simp] theorem run_memory_iff {Q : Memory → Activation → Prop} :
    Ensures Run.memory sc a Q E ↔ Q a.machine.memory a := Iff.rfl

end Run

end Ensures

/-- Two computations have the same outcome, and what holds of it. -/
def Agree (x y : ReaderT ρ (EStateM ε σ) α) (r : ρ) (s : σ) (Q : α → σ → Prop)
    (E : ε → σ → Prop) : Prop :=
  x r s = y r s ∧ Ensures x r s Q E

namespace Agree

variable {r : ρ} {s : σ} {Q Q' : α → σ → Prop} {E E' : ε → σ → Prop}

theorem mono {x y : ReaderT ρ (EStateM ε σ) α} (h : Agree x y r s Q E)
    (hQ : ∀ a s, Q a s → Q' a s) (hE : ∀ e s, E e s → E' e s) : Agree x y r s Q' E' :=
  ⟨h.1, h.2.mono hQ hE⟩

theorem self (x : ReaderT ρ (EStateM ε σ) α) : Agree x x r s (fun _ _ => True) fun _ _ => True :=
  ⟨rfl, .of_forall (fun _ _ => trivial) fun _ _ => trivial⟩

theorem bind {x y : ReaderT ρ (EStateM ε σ) β} {f g : β → ReaderT ρ (EStateM ε σ) α}
    {P : β → σ → Prop} (hx : Agree x y r s P E)
    (hf : ∀ b t, P b t → Agree (f b) (g b) r t Q E) : Agree (x >>= f) (y >>= g) r s Q E := by
  refine ⟨?_, hx.2.bind fun b t hb => (hf b t hb).2⟩
  have hs : ∀ z : ReaderT ρ (EStateM ε σ) β, ∀ k : β → ReaderT ρ (EStateM ε σ) α,
      (z >>= k) r s = match z r s with
        | .ok b t => k b r t
        | .error e t => .error e t := fun z k => rfl
  rw [hs, hs, ← hx.1]
  cases h : x r s with
  | ok b t => exact (hf b t (hx.2.ok h)).1
  | error e t => rfl

section Exec

variable {δ : Type} {w : Context} {m : Machine}

theorem exec_mapError {f : ε → δ} {x y : Exec ε α} {Q : α → Machine → Prop}
    {E : δ → Machine → Prop} (h : Agree x y w m Q fun e => E (f e)) :
    Agree (Exec.mapError f x) (Exec.mapError f y) w m Q E :=
  ⟨by simp only [Exec.mapError, h.1], Ensures.exec_mapError_iff.mpr h.2⟩

theorem exec_attempt {x y : Exec ε α} {Q : Except ε α → Machine → Prop} {E : δ → Machine → Prop}
    (h : Agree x y w m (fun a => Q (.ok a)) fun e => Q (.error e)) :
    Agree (Exec.attempt x) (Exec.attempt y) w m Q E :=
  ⟨by simp only [Exec.attempt, h.1], Ensures.exec_attempt_iff.mpr h.2⟩

end Exec

section Run

variable {sc : Scope} {a : Activation} {Q : α → Activation → Prop}
  {E : ScriptError → Activation → Prop}

theorem run_andFinally {x y : Run α} {after : Exec Empty Unit}
    (h : Agree x y sc a
      (fun r b => Ensures after sc.context b.machine (fun _ m => Q r ⟨b.frame, m⟩) fun _ _ => True)
      fun e b =>
        Ensures after sc.context b.machine (fun _ m => E e ⟨b.frame, m⟩) fun _ _ => True) :
    Agree (x.andFinally after) (y.andFinally after) sc a Q E :=
  ⟨by simp only [Run.andFinally, h.1], Ensures.run_andFinally_iff.mpr h.2⟩

theorem run_mapError {f : ScriptError → ScriptError} {x y : Run α}
    (h : Agree x y sc a Q fun e => E (f e)) : Agree (x.mapError f) (y.mapError f) sc a Q E :=
  ⟨by simp only [Run.mapError, h.1], Ensures.run_mapError_iff.mpr h.2⟩

theorem run_attempt {x y : Run α} {Q : Except ScriptError α → Activation → Prop}
    (h : Agree x y sc a (fun r => Q (.ok r)) fun e => Q (.error e)) :
    Agree x.attempt y.attempt sc a Q E :=
  ⟨by simp only [Run.attempt, h.1], Ensures.run_attempt_iff.mpr h.2⟩

end Run

end Agree

namespace Program

open Exec

variable {invoke invoke' : Invoke} {p : Program} {seat : Seat} {args : List Value}
  {ret : Option Place} {w : Context} {m : Machine} {Q : Option Value → Machine → Prop}
  {E : ScriptError → Machine → Prop}

def succeeds {ε α : Type} : EStateM.Result ε Machine α → Bool
  | .ok _ _ => true
  | .error _ _ => false

def passes {ε σ α : Type} (r : EStateM.Result ε σ α) (test : α → σ → Bool) : Bool :=
  match r with
  | .ok a s => test a s
  | .error _ _ => false

theorem runIn_iff {f : Frame} :
    Ensures (p.runIn invoke seat args ret f) w m Q E ↔
      Ensures (Run.body invoke args ret) (p.scope seat args w) ⟨f, m⟩
        (fun v a => Q v ((closeFrame (p.scope seat args w) a).watchResult v))
        fun e a => E e (closeFrame (p.scope seat args w) a) := by
  simp only [Ensures, runIn]
  cases Run.body invoke args ret (p.scope seat args w) ⟨f, m⟩ <;> rfl

theorem execute_eq :
    p.execute invoke seat args ret w m =
      match p.runFramed invoke seat args ret w (p.enter seat args m) with
      | .ok v m' => .ok v (leave seat m.current (m.interpreter seat).world m')
      | .error e m' =>
        match p.recordFailure seat ((m.interpreter seat).depth > 0) (e.within p.script p.name) w m' with
        | .ok _ m' =>
          .error (e.within p.script p.name) (leave seat m.current (m.interpreter seat).world m') := by
  have hrun : p.execute invoke seat args ret w m =
      (attempt (mapError (·.within p.script p.name) (runFramed invoke p seat args ret)) >>=
        conclude p seat m.current (m.interpreter seat)) w (p.enter seat args m) := rfl
  rw [hrun]
  simp only [bind, ReaderT.bind, EStateM.bind, attempt, mapError]
  cases p.runFramed invoke seat args ret w (p.enter seat args m) with
  | ok v m' => rfl
  | error e m' =>
    simp only [conclude, bind, ReaderT.bind, EStateM.bind, ofTotal]
    cases p.recordFailure seat ((m.interpreter seat).depth > 0) (e.within p.script p.name) w m' with
    | ok u m'' => rfl
    | error e => cases e

theorem execute_iff :
    Ensures (p.execute invoke seat args ret) w m Q E ↔
      Ensures (p.runFramed invoke seat args ret) w (p.enter seat args m)
        (fun v m' => Q v (leave seat m.current (m.interpreter seat).world m'))
        fun e m' =>
          Ensures (p.recordFailure seat ((m.interpreter seat).depth > 0) (e.within p.script p.name))
            w m'
            (fun _ m' => E (e.within p.script p.name)
              (leave seat m.current (m.interpreter seat).world m'))
            fun _ _ => True := by
  unfold Ensures
  rw [execute_eq]
  cases p.runFramed invoke seat args ret w (p.enter seat args m) with
  | ok v m' => rfl
  | error e m' =>
    dsimp only
    cases p.recordFailure seat ((m.interpreter seat).depth > 0) (e.within p.script p.name) w m' with
    | ok u m'' => rfl
    | error e => cases e

end Program

end Flowscript
