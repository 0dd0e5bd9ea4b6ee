import Flowscript.Proofs.Machine.OutcomeLogic

/-! # Nested calls

Scripts call functions that are no scripts, and these may call scripts again. What such functions do
is a parameter here: `invokeUnder` checks and runs calls as `invokeWithin` does, but with any native
code, which is told the calls of programs that are under way.
-/
namespace Flowscript

open Exec

/-- What functions that are no scripts do, given a way to call functions. -/
abbrev Native := Invoke → Invoke

/-- A call of a program that is under way. -/
structure Call where
  program : Program
  args : List Value

namespace Native

/-- The functions that come with types and those of the host. -/
def builtin : Native := fun invoke f args ret =>
  match f.body with
  | .native op shape destructor => op.run shape destructor args ret
  | .aggregate op whole => op.run invoke whole args ret
  | .host h => h.run invoke f args ret
  | .script _ => throw .tooDeep

end Native

/-- Checks the arguments of a function and calls it, inside of calls of programs, the innermost
first. Calls nest at most so deep. -/
def invokeUnder (native : List Call → Native) : Nat → List Call → Invoke
  | 0, _ => fun _ _ _ => throw .tooDeep
  | depth + 1, calls => fun f args ret =>
    match f.check (args.map Value.argument) with
    | .error e => throw e
    | .ok () =>
      match f.body with
      | .script number => do
        let p ← readyProgram number
        let seat := (← get).seat
        mapError .script (p.execute (invokeUnder native depth (⟨p, args⟩ :: calls)) seat args ret)
      | _ => native calls (invokeUnder native depth calls) f args ret

theorem invokeUnder_builtin (depth : Nat) (calls : List Call) :
    invokeUnder (fun _ => Native.builtin) depth calls = invokeWithin depth := by
  induction depth generalizing calls with
  | zero => rfl
  | succ depth ih =>
    funext f args ret
    simp only [invokeUnder, invokeWithin, Native.builtin, Function.run, runScript]
    cases f.check (args.map Value.argument) with
    | error e => rfl
    | ok u => cases f.body <;> simp only [ih]

/-- A program that is behind one of the bodies. -/
def Context.Offers (w : Context) (p : Program) : Prop :=
  ∃ (number : Nat) (body : ScriptBody), w.bodies[number]? = some body ∧ body.state = .ready p

theorem readyProgram_behind {number : Nat} {w : Context} {m : Machine}
    {Q : Program → Machine → Prop} {E : CallError → Machine → Prop}
    (hQ : ∀ body p, w.bodies[number]? = some body → body.state = .ready p → Q p m)
    (hE : ∀ e, E e m) : Ensures (readyProgram number) w m Q E := by
  simp only [readyProgram, Ensures.bind_iff, Ensures.read_iff]
  cases hbody : w.bodies[number]? with
  | none => exact hE _
  | some body =>
    cases h : body.state with
    | pending => simp only [h]; exact hE _
    | ready p => simp only [h]; exact hQ body p hbody h
    | failed reason => simp only [h]; exact hE _
    | unloaded => simp only [h]; exact hE _

theorem readyProgram_ensures {number : Nat} {w : Context} {m : Machine}
    {Q : Program → Machine → Prop} {E : CallError → Machine → Prop} (hQ : ∀ p, w.Offers p → Q p m)
    (hE : ∀ e, E e m) : Ensures (readyProgram number) w m Q E :=
  readyProgram_behind (fun body p hbody h => hQ p ⟨number, body, hbody, h⟩) hE

end Flowscript
