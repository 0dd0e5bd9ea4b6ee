import Mathlib.Data.List.Forall2
import Flowscript.Proofs.Machine.OutcomeLogic

/-! # Accepted arguments

Functions check the arguments they are called with. Constructors are looked up by the arguments, so
they accept them; the arguments of a call that were made to its parameters are accepted too. What
functions would do with other arguments does not matter then.
-/
namespace Flowscript

theorem Form.accepts_self (form : Form) : form.accepts form = true := by cases form <;> rfl

namespace Function

/-- An argument made for a parameter: of its type and form, and null only where that is allowed. -/
structure MadeFor (p : Param) (v : Value) : Prop where
  type : v.type = p.type
  form : v.form = p.form
  null : v.isNull = true → p.form.isNullable = true

theorem madeFor_borrowed (p : Param) (place : Place) :
    MadeFor p (.borrowed p.type p.form place) := by
  refine ⟨rfl, rfl, fun h => ?_⟩
  unfold Value.isNull Value.borrowed Value.place? at h
  cases hp : p.form.isPointer with
  | true => exact hp
  | false =>
    rw [hp] at h
    cases h

theorem madeFor_null {p : Param} (h : p.form.isPointer = true) :
    MadeFor p (.null p.type p.form) := ⟨rfl, rfl, fun _ => h⟩

theorem checkArgument_of_madeFor (f : Function) (index : Nat) {p : Param} {v : Value}
    (h : MadeFor p v) : f.checkArgument index p v.argument = .ok () := by
  unfold checkArgument Value.argument
  rw [h.type, h.form, if_neg (fun hne => hne rfl), Form.accepts_self]
  cases hnull : v.isNull with
  | false => rfl
  | true => rw [h.null hnull]; rfl

theorem checkFrom_of_madeFor (f : Function) (index : Nat) {ps : List Param} {vs : List Value}
    (h : List.Forall₂ MadeFor ps vs) : f.checkFrom index ps (vs.map Value.argument) = .ok () := by
  induction h generalizing index with
  | nil => rfl
  | cons hv _ ih =>
    simp only [List.map_cons, checkFrom, checkArgument_of_madeFor f index hv]
    exact ih (index + 1)

theorem check_of_madeFor {f : Function} {vs : List Value}
    (h : List.Forall₂ MadeFor f.params vs) : f.check (vs.map Value.argument) = .ok () := by
  unfold check
  rw [List.length_map, h.length_eq, if_neg (fun hne => hne rfl)]
  exact checkFrom_of_madeFor f 0 h

end Function

namespace TypeInfo

theorem check_of_better {args : List Function.Argument} {best : Option Function} {f g : Function}
    (hbest : ∀ g ∈ best, g.check args = .ok ()) (hf : f.check args = .ok ())
    (hg : better args best f = some g) : g.check args = .ok () := by
  unfold better at hg
  cases best with
  | none =>
    cases hg
    exact hf
  | some b =>
    dsimp only at hg
    split at hg
    · cases hg
      exact hf
    · cases hg
      exact hbest _ rfl

theorem check_of_walkOverloads {args : List Function.Argument} {fs : List Function}
    {best : Option Function} {last : Option CallError} {f : Function}
    (hbest : ∀ g ∈ best, g.check args = .ok ()) (h : (walkOverloads args fs best last).1 = some f) :
    f.check args = .ok () := by
  induction fs generalizing best last with
  | nil => exact hbest f h
  | cons g fs ih =>
    unfold walkOverloads at h
    cases hg : g.check args with
    | error e =>
      rw [hg] at h
      exact ih hbest h
    | ok u =>
      rw [hg] at h
      exact ih (fun k hk => check_of_better hbest hg hk) h

theorem check_of_resolve {t : TypeInfo} {key : FunctionKey} {args : List Function.Argument}
    {f : Function} (h : t.resolve key args = .ok f) : f.check args = .ok () := by
  unfold resolve at h
  split at h
  · cases h
  · split at h
    · rename_i hwalk
      cases h
      refine check_of_walkOverloads (fun g (hg : g ∈ none) => ?_) (by rw [hwalk])
      cases hg
    · cases h
    · cases h

end TypeInfo

namespace Invoke

open Exec

/-- Two ways to call functions that do the same with arguments that are accepted. -/
def Alike (invoke invoke' : Invoke) : Prop :=
  ∀ (f : Function) (args : List Value) (ret : Option Place),
    f.check (args.map Value.argument) = .ok () → invoke f args ret = invoke' f args ret

variable {invoke invoke' : Invoke}

/-- Calls functions with arguments they accept, and does something else with others. -/
def guarded (invoke other : Invoke) : Invoke := fun f args ret =>
  match f.check (args.map Value.argument) with
  | .ok () => invoke f args ret
  | .error _ => other f args ret

theorem alike_guarded (invoke other : Invoke) : invoke.Alike (guarded invoke other) := by
  intro f args ret h
  unfold guarded
  rw [h]

theorem callKey_congr (h : invoke.Alike invoke') (t : TypeInfo) (key : FunctionKey)
    (args : List Value) (ret : Option Place) :
    callKey invoke t key args ret = callKey invoke' t key args ret := by
  unfold callKey
  cases hr : t.resolve key (args.map Value.argument) with
  | ok f => exact h f args ret (TypeInfo.check_of_resolve hr)
  | error e => rfl

theorem constructAt_congr (h : invoke.Alike invoke') (t : TypeInfo) (target : Place)
    (args : List Value) : constructAt invoke t target args = constructAt invoke' t target args := by
  unfold constructAt
  rw [callKey_congr h]

theorem defaultAt_congr (h : invoke.Alike invoke') (t : TypeInfo) (target : Place) :
    defaultAt invoke t target = defaultAt invoke' t target := constructAt_congr h t target []

theorem copyAt_congr (h : invoke.Alike invoke') (t : TypeInfo) (target source : Place) :
    copyAt invoke t target source = copyAt invoke' t target source := constructAt_congr h t target _

mutual

theorem decode_congr (h : invoke.Alike invoke') (codec : Codec) (j : Json) (target : Place) :
    decode invoke codec j target = decode invoke' codec j target := by
  cases codec with
  | native c => unfold decode; rfl
  | aggregate parts =>
    unfold decode
    cases j with
    | obj entries => exact decodeParts_congr h parts entries target
    | _ => rfl

theorem decodeParts_congr (h : invoke.Alike invoke') (parts : List (Part × Codec))
    (entries : List (String × Json)) (target : Place) :
    decodeParts invoke parts entries target = decodeParts invoke' parts entries target := by
  match parts with
  | [] => unfold decodeParts; rfl
  | (part, codec) :: rest =>
    have hpart : ∀ j place, decode invoke codec j place = decode invoke' codec j place :=
      fun j place => decode_congr h codec j place
    unfold decodeParts
    simp only [hpart, defaultAt_congr h, decodeParts_congr h rest]

end

theorem decodeAt_congr (h : invoke.Alike invoke') (t : TypeInfo) (j : Json) (target : Place) :
    decodeAt invoke t j target = decodeAt invoke' t j target := by
  unfold decodeAt
  cases t.codec with
  | some codec => exact decode_congr h codec j target
  | none => rfl

end Invoke

end Flowscript
