import Flowscript.Proofs.Run.SafeRuns

/-! # Moments of a run

Between two statements, a running call goes on somewhere and is in some state. One statement leads from such
a moment to the next, and a run of statements passes through a row of them.
-/
namespace Flowscript

open Run

/-- A running call between two statements: where it goes on, and its state. -/
structure Moment where
  next : Option PinId
  act : Activation

/-- What does not change while statements run: how functions are called, where the result is wanted, and
what the call looks at. -/
structure Course where
  invoke : Invoke
  ret : Option Place
  scope : Scope

def Program.follow (p : Program) (n : ProgramNode) (index : Nat) : Option PinId :=
  n.flowOut[index]?.bind fun output => (p.pin? output).bind (·.target)

def Activation.int? (p : Program) (id : PinId) (a : Activation) : Option Int :=
  (a.frame.value? p id).bind fun place =>
    match a.machine.memory.read place (.int .i32) with
    | .int k => some k
    | _ => none

def Frame.Inside (id : NodeId) (f : Frame) : Prop := f.loops.head?.map (·.node) = some id

instance (id : NodeId) (f : Frame) : Decidable (f.Inside id) := inferInstanceAs (Decidable (_ = _))

namespace Course

variable (r : Course)

def node? (m : Moment) : Option NodeId :=
  match arrival? m.next m.act.frame with
  | some (.through id) => (r.scope.program.pin? id).map (·.node)
  | some (.again marker) => some marker.node
  | none => none

/-- What becomes of the next statement, if there is one. It takes a step of the budget. -/
def outcome? (m : Moment) : Option (EStateM.Result ScriptError Activation Outcome) :=
  (arrival? m.next m.act.frame).map fun arrival =>
    (do tick; statement r.invoke r.ret arrival : Run Outcome) r.scope m.act

/-- The moment after the next statement, unless that one fails or returns. -/
def step? (m : Moment) : Option Moment :=
  match r.outcome? m with
  | some (.ok (.next next) a) =>
    some ⟨next, ⟨{ a.frame with statements := a.frame.statements + 1 }, a.machine⟩⟩
  | _ => none

/-- The budget does not allow the next statement. -/
def Exceeds (m : Moment) : Prop :=
  ∃ e a, r.outcome? m = some (.error e a) ∧ e.kind = .executionTimeOut

/-- A run of statements from one moment to another, with the moments before its statements. -/
inductive Runs : Moment → List Moment → Moment → Prop
  | refl (m : Moment) : Runs m [] m
  | step {m m' m'' : Moment} {ms : List Moment} (h : r.step? m = some m') (hr : Runs m' ms m'') :
    Runs m (m :: ms) m''

/-- The index with which the next statement enters the body of a loop, if it does. -/
def index? (n : ProgramNode) (m : Moment) : Option Int :=
  if r.node? m = some n.id then
    (r.step? m).bind fun m' =>
      if m'.act.frame.Inside n.id then n.dataOut.head?.bind fun index => m'.act.int? r.scope.program index
      else none
  else none

/-- The indices with which a run enters the body of a loop, in order. -/
def entries (n : ProgramNode) (ms : List Moment) : List Int := ms.filterMap (r.index? n)

def Avoids (id : NodeId) (ms : List Moment) : Prop := ∀ m ∈ ms, r.node? m ≠ some id

/-- A run that enters the body of a loop on every visit of it. -/
def Stays (n : ProgramNode) (ms : List Moment) : Prop :=
  ∀ m ∈ ms, r.node? m = some n.id → (r.index? n m).isSome

variable {r}

theorem exists_outcome {m m' : Moment} (h : r.step? m = some m') :
    ∃ b, r.outcome? m = some (.ok (.next m'.next) b) ∧
      m'.act = ⟨{ b.frame with statements := b.frame.statements + 1 }, b.machine⟩ := by
  unfold step? at h
  split at h
  · rename_i next b houtcome
    cases h
    exact ⟨b, houtcome, rfl⟩
  · cases h

namespace Runs

variable {m m' m'' : Moment} {ms ms' : List Moment}

theorem one (h : r.step? m = some m') : r.Runs m [m] m' := .step h (.refl m')

theorem trans (h : r.Runs m ms m') (h' : r.Runs m' ms' m'') : r.Runs m (ms ++ ms') m'' := by
  induction h with
  | refl m => exact h'
  | step hstep _ ih => exact .step hstep (ih h')

theorem statements_succ (h : r.step? m = some m') (fuel : Nat) :
    statements r.invoke r.ret (fuel + 1) m.next r.scope m.act =
      statements r.invoke r.ret fuel m'.next r.scope m'.act := by
  unfold step? outcome? at h
  cases harrival : arrival? m.next m.act.frame with
  | none =>
    rw [harrival] at h
    cases h
  | some arrival =>
    rw [harrival, Option.map_some] at h
    have hframe : (Run.frame : Run Frame) r.scope m.act = .ok m.act.frame m.act := rfl
    rw [statements, bind_of_ok hframe]
    simp only [harrival]
    cases htick : tick r.scope m.act with
    | error e a =>
      rw [bind_of_error htick] at h
      cases h
    | ok u a =>
      rw [bind_of_ok htick] at h ⊢
      cases hstatement : statement r.invoke r.ret arrival r.scope a with
      | error e b =>
        rw [hstatement] at h
        cases h
      | ok outcome b =>
        rw [hstatement] at h
        rw [bind_of_ok hstatement]
        cases outcome with
        | done result => cases h
        | next next =>
          cases h
          rfl

theorem statements_eq (h : r.Runs m ms m') (fuel : Nat) :
    statements r.invoke r.ret (ms.length + fuel) m.next r.scope m.act =
      statements r.invoke r.ret fuel m'.next r.scope m'.act := by
  induction h with
  | refl m => rw [List.length_nil, Nat.zero_add]
  | step hstep _ ih =>
    rw [← ih, ← statements_succ hstep, List.length_cons, Nat.add_right_comm]

theorem of_concat {v : Moment} (h : r.Runs m (ms ++ [v]) m') : r.Runs m ms v ∧ r.step? v = some m' := by
  generalize hrow : ms ++ [v] = row at h
  induction h generalizing ms with
  | refl m => exact absurd hrow (List.append_ne_nil_of_right_ne_nil ms (List.cons_ne_nil v []))
  | @step m next m' row hstep hrest ih =>
    cases ms with
    | nil =>
      cases hrow
      cases hrest
      exact ⟨.refl _, hstep⟩
    | cons first ms =>
      obtain ⟨rfl, hafter⟩ := List.cons.inj hrow
      obtain ⟨hruns, hlast⟩ := ih hafter
      exact ⟨.step hstep hruns, hlast⟩

theorem induct {P G : Moment → Prop} (h : r.Runs m ms m') (hm : P m) (hG : ∀ v ∈ ms, G v)
    (hstep : ∀ v v', P v → G v → r.step? v = some v' → P v') : P m' := by
  induction h with
  | refl m => exact hm
  | step h _ ih =>
    obtain ⟨hfirst, hrest⟩ := List.forall_mem_cons.mp hG
    exact ih (hstep _ _ hm hfirst h) hrest

end Runs

section Rows

variable {n : ProgramNode} {id : NodeId} {m : Moment} {ms ms' : List Moment}

theorem index?_of_ne (h : r.node? m ≠ some n.id) : r.index? n m = none := if_neg h

@[simp] theorem entries_append (n : ProgramNode) (ms ms' : List Moment) :
    r.entries n (ms ++ ms') = r.entries n ms ++ r.entries n ms' := List.filterMap_append

@[simp] theorem entries_singleton (n : ProgramNode) (m : Moment) : r.entries n [m] = (r.index? n m).toList := by
  rw [entries, List.filterMap_cons]
  cases r.index? n m <;> rfl

theorem Avoids.entries_eq_nil (h : r.Avoids n.id ms) : r.entries n ms = [] := by
  refine List.filterMap_eq_nil_iff.mpr fun m hm => ?_
  exact index?_of_ne (h m hm)

theorem entries_filter (h : n.id ≠ id) :
    r.entries n (ms.filter (r.node? · ≠ some id)) = r.entries n ms := by
  induction ms with
  | nil => rfl
  | cons m ms ih =>
    rw [← List.singleton_append, List.filter_append, entries_append, entries_append, ih]
    refine congrArg (· ++ r.entries n ms) ?_
    by_cases hat : r.node? m = some id
    · have hne : r.node? m ≠ some n.id := by
        rw [hat]
        exact fun he => h (Option.some.inj he).symm
      simp [hat, index?_of_ne hne, entries]
    · simp [hat]

theorem entries_flatten {rounds : List (List Moment)} {xs : List Int}
    (h : ∀ round ∈ rounds, r.entries n round = xs) :
    r.entries n rounds.flatten = (List.replicate rounds.length xs).flatten := by
  induction rounds with
  | nil => rfl
  | cons round rest ih =>
    obtain ⟨hround, hrest⟩ := List.forall_mem_cons.mp h
    rw [List.flatten_cons, entries_append, hround, ih hrest]
    rfl

theorem Avoids.append (h : r.Avoids id ms) (h' : r.Avoids id ms') : r.Avoids id (ms ++ ms') := by
  intro m hm
  rcases List.mem_append.mp hm with hm | hm
  · exact h m hm
  · exact h' m hm

theorem Avoids.stays (h : r.Avoids n.id ms) : r.Stays n ms := fun m hm hat => absurd hat (h m hm)

theorem Stays.append (h : r.Stays n ms) (h' : r.Stays n ms') : r.Stays n (ms ++ ms') := by
  intro m hm
  rcases List.mem_append.mp hm with hm | hm
  · exact h m hm
  · exact h' m hm

end Rows

end Course

end Flowscript
