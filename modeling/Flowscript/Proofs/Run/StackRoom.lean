import Mathlib.Order.Filter.AtTopBot.Basic
import Flowscript.Proofs.Run.StepBudget
import Flowscript.Proofs.Run.WellFormedPrograms

/-! # Room for nested calls

A call of a program takes room on the stack of its interpreter, at least for the slots of its pins,
and gives it back only at its end. So programs that call each other run out of stack before long,
and with calls allowed to nest deeper and deeper, the outcome of a call becomes settled, provided
that native functions return.
-/
namespace Flowscript

open Filter

def Function.IsScript (f : Function) : Prop := ∃ number, f.body = .script number

/-- Native functions return: wherever the calls of script functions settle as calls may nest deeper
and deeper, all calls do. -/
def Native.Returns (native : List Call → Native) (w : Context) : Prop :=
  ∀ (calls : List Call) (P : Pact Nat), P.along = atTop → (∀ w' m, P.holds w' m → w' = w) →
    (∀ f : Function, f.IsScript → ∀ args ret,
      P.Keeps fun depth => invokeUnder native depth calls f args ret) →
    P.Calls fun depth => invokeUnder native depth calls

def Machine.room (m : Machine) (seat : Seat) : Nat :=
  (m.interpreter seat).stack.capacity + 1 - (m.interpreter seat).stack.used

theorem Machine.Grows.room_le {seat : Seat} {m m' : Machine} (h : m.Grows .counting seat m') :
    m'.room seat ≤ m.room seat := by
  have hcapacity : (m'.interpreter seat).stack.capacity = (m.interpreter seat).stack.capacity :=
    (h.paced seat).capacity
  have hused := h.used
  unfold room
  omega

theorem Machine.Grows.room_lt {seat : Seat} {m m' : Machine} (h : m.Grows .counting seat m')
    (hused : (m.interpreter seat).stack.used < (m'.interpreter seat).stack.used)
    (htop : (m'.interpreter seat).stack.used ≤ (m.interpreter seat).stack.capacity) :
    m'.room seat < m.room seat := by
  have hcapacity : (m'.interpreter seat).stack.capacity = (m.interpreter seat).stack.capacity :=
    (h.paced seat).capacity
  unfold room
  omega

/-- Calls that nest deeper and deeper, where less than some room is left. -/
def Conduct.within (w : Context) (seat : Seat) (room : Nat) : Conduct Nat seat where
  along := atTop
  pace := .counting
  holds w' m := w' = w ∧ m.Running seat ∧ m.room seat < room
  lasts hm h := ⟨hm.1, h.running hm.2.1, h.room_le.trans_lt hm.2.2⟩

namespace Program

variable {p : Program} {seat : Seat} {args : List Value} {w : Context} {m : Machine}

def Roomy (p : Program) : Prop := p.pins.size = 0 → p.pure = true ∧ p.result = none

theorem pins_pos {id : PinId} {q : ProgramPin} (h : p.pin? id = some q) : 0 < p.pins.size := by
  have hb := slot?_bound h
  omega

/-- Programs of edited graphs take room, unless they have nothing to do. -/
theorem roomy_of_compile {g : Graph} {c : Catalogue} {s : Setting} (hg : g.Edited)
    (h : compile g c s = .ok p) : p.Roomy := by
  have hformed := wellFormed_of_compile hg h
  obtain ⟨hfindings, ha⟩ := assembled_of_compile hg.consistent h
  obtain ⟨-, hnodes, -⟩ := Graph.findings_eq_nil_iff.mp hfindings
  intro hsize
  have hnone : ∀ id, p.pin? id = none := fun id =>
    Option.eq_none_iff_forall_ne_some.mpr fun q hq => (pins_pos hq).ne' hsize
  cases hpure : p.pure with
  | false =>
    obtain ⟨n, hn, -⟩ := ha.entry
    obtain ⟨hlive, hkind⟩ := List.mem_filter.mp hn
    have hnode := node?_of_mem_live hg.consistent hlive
    have hpins : n.kind.expectedPins g.signature c = .ok (.flowOut "Then" ::
        g.signature.params.map fun q => .dataOut q.name q.type q.form) := by
      rw [beq_iff_eq.mp hkind, NodeKind.expectedPins, ← ha.pure, hpure]
      rfl
    have hlen := length_pinsToward (hnodes n hlive) hpins .output true
    obtain ⟨id, hid⟩ : ∃ id, id ∈ (g.pinsToward n.id .output true).map (·.id) :=
      List.exists_mem_of_length_pos (hlen ▸ Nat.succ_pos _)
    obtain ⟨q, hq, -⟩ := exists_pin_of_mem hg.numbered hg.consistent hnode hid
    obtain ⟨q', hq'⟩ := ha.pin_exists id q hq
    rw [hnone] at hq'
    cases hq'
  | true =>
    refine ⟨rfl, Option.eq_none_iff_forall_ne_some.mpr fun r hr => ?_⟩
    obtain ⟨id, n, -, hn, hop⟩ := hformed.result hpure
    have hsuits := hformed.suits id n hn
    unfold Suits at hsuits
    rw [hop] at hsuits
    have hlen := hsuits.2 (by rw [hr]; rfl)
    obtain ⟨q, handle, hq, -⟩ := hformed.data id n hn _ (.inl (List.getElem_mem hlen))
    rw [hnone] at hq
    cases hq

theorem room_enter (p : Program) (seat : Seat) (args : List Value) (m : Machine) :
    (p.enter seat args m).room seat = m.room seat := by
  unfold Machine.room
  rw [interpreter_enter, Machine.interpreter_modifyInterpreter]

section Pure

variable (hpure : p.pure = true) (hresult : p.result = none) (invoke invoke' : Invoke)
include hpure hresult

theorem agree_body_of_pure {sc : Scope} (hp : sc.program = p) (args : List Value)
    (ret : Option Place) (a : Activation) :
    Agree (Run.body invoke args ret) (Run.body invoke' args ret) sc a (fun _ _ => True)
      fun _ _ => True := by
  refine Agree.bind (P := fun q _ => q = p) ⟨rfl, hp⟩ fun q b hq => ?_
  obtain rfl := hq
  refine Agree.bind (.self _) fun entry c _ => Agree.bind (.self _) fun _ d _ => ?_
  rw [hpure]
  refine Agree.bind (.self _) fun _ e _ => ?_
  cases q.returnNode with
  | none => exact .self _
  | some id =>
    refine Agree.bind (.self _) fun n f _ => Agree.bind (P := fun r _ => r = q) ⟨rfl, hp⟩
      fun r g hr => ?_
    rw [hr, hresult]
    exact .self _

theorem execute_eq_of_pure (seat : Seat) (args : List Value) (ret : Option Place) (w : Context)
    (m : Machine) : p.execute invoke seat args ret w m = p.execute invoke' seat args ret w m := by
  have hrun : Agree (p.runFramed invoke seat args ret) (p.runFramed invoke' seat args ret) w
      (p.enter seat args m) (fun _ _ => True) fun _ _ => True := by
    unfold runFramed
    split
    · exact .self _
    · refine Agree.bind (.self _) fun f m' _ => ⟨?_, (Agree.self _).2⟩
      have hscope : (p.scope seat args w).program = p := rfl
      have hbody := (agree_body_of_pure hpure hresult invoke invoke' hscope args ret ⟨f, m'⟩).1
      simp only [runIn, hbody]
  rw [execute_eq, execute_eq, hrun.1]

end Pure

end Program

theorem Settles.of_succ {ρ ε σ α : Type} {x : Nat → ReaderT ρ (EStateM ε σ) α} {r : ρ} {s : σ}
    {Q : α → σ → Prop} {E : ε → σ → Prop} (h : Settles atTop (fun depth => x (depth + 1)) r s Q E) :
    Settles atTop x r s Q E := by
  obtain ⟨y, hy, hQE⟩ := h
  obtain ⟨least, hleast⟩ := eventually_atTop.mp hy
  refine ⟨y, eventually_atTop.mpr ⟨least + 1, fun depth hdepth => ?_⟩, hQE⟩
  obtain ⟨depth, rfl⟩ : ∃ k, depth = k + 1 := Nat.exists_eq_succ_of_ne_zero (by omega)
  exact hleast depth (by omega)

/-- Functions called while a call is under way settle. The induction is on the room that is left,
which every program takes some of before it calls anything. -/
theorem calls_within {native : List Call → Native} {w : Context}
    (hreturns : Native.Returns native w) (hw : ∀ p, w.Offers p → p.Roomy) (seat : Seat) (room : Nat)
    (calls : List Call) :
    (Conduct.within w seat room).pact.Calls fun depth => invokeUnder native depth calls := by
  induction room generalizing calls with
  | zero => exact fun _ _ _ _ _ hm => absurd hm.2.2 (Nat.not_lt_zero _)
  | succ room ih =>
    refine hreturns calls _ rfl (fun _ _ hm => hm.1) fun f hf args ret w' m hm => .of_succ ?_
    obtain ⟨number, hnumber⟩ := hf
    have hinside : ∀ p : Program,
        (Conduct.within w seat (room + 1)).holds w' (p.enter seat args m) := fun p =>
      ⟨hm.1, p.running_enter seat args m, (p.room_enter seat args m).symm ▸ hm.2.2⟩
    dsimp only [invokeUnder]
    simp only [hnumber]
    cases f.check (args.map Value.argument) with
    | error e => exact .const (Machine.Kept.refl m)
    | ok u =>
      refine settles_script hm.2.1 fun p hp => ?_
      by_cases hsize : p.pins.size = 0
      · obtain ⟨hpure, hresult⟩ := hw p (hm.1 ▸ hp) hsize
        have hrun := Program.settles_execute (C := .within w seat (room + 1))
          (fun _ _ _ => .throw .tooDeep) (fun m' hm' _ _ => Conduct.lasts _ (hinside p) hm') ret
        exact hrun.congr (.of_forall fun _ =>
          Program.execute_eq_of_pure hpure hresult _ _ seat args ret w' m)
      · refine Program.settles_execute (ih (⟨p, args⟩ :: calls)) (fun m' hm' hslots htop => ?_) ret
        have hlt : m'.room seat < (p.enter seat args m).room seat :=
          hm'.room_lt (by omega) htop
        exact ⟨hm.1, hm'.running (hinside p).2.1, hlt.trans_le (Nat.lt_succ_iff.mp (hinside p).2.2)⟩

/-- A call of a program ends: as calls may nest deeper and deeper, its outcome is settled. -/
theorem Program.execute_settled {native : List Call → Native} {w : Context}
    (hreturns : Native.Returns native w) (hw : ∀ p, w.Offers p → p.Roomy) (calls : List Call)
    (p : Program) (seat : Seat) (args : List Value) (ret : Option Place) (m : Machine) :
    ∃ outcome, ∃ enough, ∀ depth ≥ enough,
      p.execute (invokeUnder native depth calls) seat args ret w m = outcome := by
  have hinside : (Conduct.within w seat (m.room seat + 1)).holds w (p.enter seat args m) :=
    ⟨rfl, p.running_enter seat args m, (p.room_enter seat args m).symm ▸ Nat.lt_succ_self _⟩
  obtain ⟨y, hy, -⟩ := settles_execute (calls_within hreturns hw seat (m.room seat + 1) calls)
    (fun m' hm' _ _ => Conduct.lasts _ hinside hm') ret
  exact ⟨y w m, eventually_atTop.mp hy⟩

/-- Functions that do their work without calling others. -/
def Native.simple : Native := fun _ f args ret =>
  match f.body with
  | .native op shape destructor => op.run shape destructor args ret
  | _ => throw .tooDeep

theorem Native.returns_simple (w : Context) : Native.Returns (fun _ => Native.simple) w := by
  intro calls P hP _ hscript f args ret w' m hm
  by_cases hf : f.IsScript
  · exact hscript f hf args ret w' m hm
  have hnative : ∀ number, f.body ≠ .script number := fun number h => hf ⟨number, h⟩
  have hkeeps : P.Keeps fun _ => invokeUnder (fun _ => Native.simple) 1 calls f args ret := by
    dsimp only [invokeUnder]
    cases f.check (args.map Value.argument) with
    | error e => exact .throw e
    | ok u =>
      cases hbody : f.body with
      | script number => exact absurd hbody (hnative number)
      | native op shape destructor =>
        simp only [simple, hbody]
        exact NativeOp.keeps_run op shape destructor args ret
      | _ =>
        simp only [simple, hbody]
        exact .throw _
  refine (hkeeps w' m hm).congr ?_
  rw [hP]
  refine eventually_atTop.mpr ⟨1, fun depth hdepth => ?_⟩
  obtain ⟨depth, rfl⟩ := Nat.exists_eq_add_of_le' hdepth
  dsimp only [invokeUnder]
  cases f.check (args.map Value.argument) with
  | error e => rfl
  | ok u =>
    cases hbody : f.body with
    | script number => exact absurd hbody (hnative number)
    | _ => rfl

end Flowscript
