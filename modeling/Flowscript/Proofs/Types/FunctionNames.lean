import Flowscript.Proofs.Types.OverloadChoice

/-! # Functions by name

A type keeps its functions under keys, and all that an ordinary name gives for a key is its hash. So
functions with different names may share a key. Lookups by name tell them apart; but a function that is
added replaces any with its key and signature, and a call chooses among all functions under its key.
Under each name just its own functions are seen if no key is shared and no signature stands for two
shapes.
-/
namespace Flowscript.TypeInfo

open Flowscript.Function

variable {t : TypeInfo} {fs : List Function} {f : Function} {n : String}

theorem overloads_addFunction (t : TypeInfo) (f : Function) (key : FunctionKey) :
    (t.addFunction f).overloads key =
      if key = f.key then (t.overloads key).filter (·.signature ≠ f.signature) ++ [f] else t.overloads key := by
  rw [overloads, addFunction, lookup_setOverloads]
  split
  · next hkey =>
    rw [Option.getD_some, hkey]
    exact congrArg (· ++ [f]) (List.filter_congr fun g _ => by rw [bne, decide_not]; rfl)
  · rfl

theorem overloads_addFunctions (t : TypeInfo) (fs : List Function) (key : FunctionKey) :
    (t.clearFunctions.addFunctions fs).overloads key = latest signature (fs.filter (·.key = key)) := by
  induction fs using List.reverseRecOn with
  | nil => rfl
  | append_singleton fs f ih =>
    rw [show t.clearFunctions.addFunctions (fs ++ [f]) = (t.clearFunctions.addFunctions fs).addFunction f from
      List.foldl_concat _ _ _ _, overloads_addFunction, ih, List.filter_append]
    by_cases hkey : key = f.key
    · rw [if_pos hkey, List.filter_singleton, decide_eq_true hkey.symm, cond_true, latest_concat]
    · rw [if_neg hkey, List.filter_singleton, decide_eq_false (Ne.symm hkey), cond_false, List.append_nil]

/-- The functions with a name that remain if a later one replaces an earlier one of its shape. -/
def remaining (n : String) (fs : List Function) : List Function :=
  latest Function.shape (fs.filter (·.name == n))

theorem mem_of_mem_remaining (h : f ∈ remaining n fs) : f ∈ fs ∧ f.name = n := by
  obtain ⟨hf, hname⟩ := List.mem_filter.mp (mem_of_mem_latest h)
  exact ⟨hf, eq_of_beq hname⟩

def only (t : TypeInfo) (n : String) (fs : List Function) : TypeInfo :=
  { t with functions := [(.ofName n, fs)] }

theorem overloads_only (t : TypeInfo) (n : String) (fs : List Function) :
    (t.only n fs).overloads (.ofName n) = fs := by
  simp [only, overloads]

/-- What is seen of a type under a name is just some functions: these are found, and calls choose among
these. -/
structure Sees (t : TypeInfo) (n : String) (fs : List Function) : Prop where
  named : t.functionsNamed n = fs
  found : ∀ signature, t.findFunction? n signature = fs.find? (·.signature == signature)
  chosen : ∀ args, t.resolve (.ofName n) args = (t.only n fs).resolve (.ofName n) args
  called : ∀ (invoke : Invoke) (args : List Value) (ret : Option Place),
    invoke.callKey t (.ofName n) args ret = invoke.callKey (t.only n fs) (.ofName n) args ret

/-- All is seen under a name that is kept under its key, if all of that has the name. -/
theorem sees_of_overloads (h : t.overloads (.ofName n) = fs) (hname : ∀ f ∈ fs, f.name = n) :
    t.Sees n fs := by
  have hnamed : t.functionsNamed n = fs := by
    rw [functionsNamed, h]
    exact List.filter_eq_self.mpr fun f hf => beq_iff_eq.mpr (hname f hf)
  have hchosen : ∀ args, t.resolve (.ofName n) args = (t.only n fs).resolve (.ofName n) args := by
    intro args
    rw [resolve, resolve, overloads_only, h]
    rfl
  refine ⟨hnamed, fun signature => by rw [findFunction?, hnamed], hchosen, fun invoke args ret => ?_⟩
  rw [Invoke.callKey, Invoke.callKey, hchosen]

section Arity

variable {args : List Argument} {gs : List Function}

theorem walkOverloads_of_error {last : Option CallError} (h : ∀ f ∈ fs, f.check args ≠ .ok ()) :
    (walkOverloads args fs none last).1 = none := by
  cases hwalk : (walkOverloads args fs none last).1 with
  | none => rfl
  | some f =>
    refine absurd (check_of_walkOverloads (fun g (hg : g ∈ none) => by cases hg) hwalk) (h f ?_)
    exact (TypeInfo.mem_of_walkOverloads hwalk).resolve_right nofun

theorem resolve_of_length_ne {key : FunctionKey} {last : Function} (h : t.overloads key = fs ++ [last])
    (hlength : ∀ f ∈ fs ++ [last], args.length ≠ f.params.length) :
    t.resolve key args = .error (.noOverload t.name key (.arity last.name last.params.length args.length)) := by
  obtain ⟨hfs, hlast⟩ := List.forall_mem_append.mp hlength
  have hcheck : ∀ f ∈ fs, f.check args ≠ .ok () := fun f hf hok => by
    rw [check, if_pos (hfs f hf)] at hok
    cases hok
  have hwalk : walkOverloads args (fs ++ [last]) none none =
      (none, some (.arity last.name last.params.length args.length)) := by
    rw [walkOverloads_append, walkOverloads_of_error hcheck, walkOverloads, check,
      if_pos (hlast last List.mem_cons_self)]
    rfl
  rw [resolve, h]
  split
  · next hnil => exact absurd hnil (List.append_ne_nil_of_right_ne_nil fs (List.cons_ne_nil last []))
  · next => rw [hwalk]

/-- What is seen under a name has it, so if all calls fail the last overload has it. -/
theorem name_of_sees {u : TypeInfo} {last : Function} (hsees : u.Sees n (remaining n fs))
    (h : u.overloads (.ofName n) = gs ++ [last]) : last.name = n := by
  -- More arguments than any overload takes, of those that are there and of those that are to be seen.
  let longest := ((gs ++ [last] ++ remaining n fs).map (·.params.length)).sum + 1
  let args : List Argument := .replicate longest ⟨.ofName "", .value, false⟩
  have hlength : ∀ f ∈ gs ++ [last] ++ remaining n fs, args.length ≠ f.params.length := fun f hf => by
    have := List.le_sum_of_mem (List.mem_map_of_mem (f := fun f : Function => f.params.length) hf)
    rw [List.length_replicate]
    omega
  obtain ⟨hthere, hall⟩ := List.forall_mem_append.mp hlength
  have hresolve := (resolve_of_length_ne h hthere).symm.trans (hsees.chosen args)
  rcases List.eq_nil_or_concat (remaining n fs) with hnil | ⟨init, seen, hconcat⟩
  · rw [hnil, resolve, overloads_only] at hresolve
    cases hresolve
  · rw [List.concat_eq_append] at hconcat
    have hseen : seen ∈ remaining n fs := by
      rw [hconcat]
      exact List.mem_append_right init List.mem_cons_self
    have hname : seen.name = n := (mem_of_mem_remaining hseen).2
    rw [hconcat] at hall
    rw [hconcat, resolve_of_length_ne (overloads_only _ _ _) hall] at hresolve
    injection hresolve with hresolve
    injection hresolve with _ _ hresolve
    injection hresolve with hresolve
    rw [hresolve, hname]

end Arity

/-- Names of which no two lead to one key, and functions with these of which no two of one name share a
signature by accident. -/
structure Apart (names : Set String) (fs : List Function) : Prop where
  keys : ∀ f ∈ fs, ∀ n ∈ names, f.key = .ofName n → f.name = n
  signatures : ∀ f ∈ fs, ∀ g ∈ fs, f.name = g.name → f.signature = g.signature → f.shape = g.shape

section Names

variable {names : Set String}

theorem Apart.sees (h : Apart names fs) (hn : n ∈ names) :
    (t.clearFunctions.addFunctions fs).Sees n (remaining n fs) := by
  refine sees_of_overloads ?_ fun f hf => (mem_of_mem_remaining hf).2
  have hkey : fs.filter (·.key = .ofName n) = fs.filter (·.name == n) := List.filter_congr fun f hf => by
    rw [Bool.eq_iff_iff, decide_eq_true_eq, beq_iff_eq]
    exact ⟨h.keys f hf n hn, fun hname => congrArg FunctionKey.ofName hname⟩
  rw [overloads_addFunctions, hkey, remaining]
  refine latest_congr fun f hf g hg => ⟨fun hsignature => ?_, signature_eq_of_shape⟩
  obtain ⟨hf, hfname⟩ := List.mem_filter.mp hf
  obtain ⟨hg, hgname⟩ := List.mem_filter.mp hg
  exact h.signatures f hf g hg ((eq_of_beq hfname).trans (eq_of_beq hgname).symm) hsignature

theorem apart_of_sees (hnames : ∀ f ∈ fs, f.name ∈ names)
    (h : ∀ n ∈ names, (t.clearFunctions.addFunctions fs).Sees n (remaining n fs)) : Apart names fs := by
  refine ⟨fun f hf n hn hkey => ?_, fun f hf g hg hname hsignature => ?_⟩
  · have hthere : (t.clearFunctions.addFunctions fs).overloads f.key ≠ [] := by
      rw [overloads_addFunctions]
      have hkept : f ∈ fs.filter (·.key = f.key) := List.mem_filter.mpr ⟨hf, decide_eq_true rfl⟩
      obtain ⟨g, hg, -⟩ := exists_mem_latest Function.signature hkept
      exact List.ne_nil_of_mem hg
    obtain ⟨init, last, hconcat⟩ := (List.eq_nil_or_concat _).resolve_left hthere
    rw [List.concat_eq_append] at hconcat
    rw [← name_of_sees (h n hn) (hkey ▸ hconcat), name_of_sees (h f.name (hnames f hf)) hconcat]
  · -- Both shapes are seen, but only one function of the signature is there.
    have hseen : ∀ k ∈ fs, k.name = g.name →
      ∃ l ∈ (t.clearFunctions.addFunctions fs).overloads (.ofName g.name),
        l.shape = k.shape := by
      intro k hk hkname
      have hkept : k ∈ fs.filter (·.name == g.name) := List.mem_filter.mpr ⟨hk, beq_iff_eq.mpr hkname⟩
      obtain ⟨l, hl, hshape⟩ := exists_mem_latest Function.shape hkept
      change l ∈ remaining g.name fs at hl
      rw [← (h g.name (hnames g hg)).named] at hl
      exact ⟨l, List.mem_of_mem_filter hl, hshape⟩
    obtain ⟨f', hf', hfshape⟩ := hseen f hf hname
    obtain ⟨g', hg', hgshape⟩ := hseen g hg rfl
    rw [overloads_addFunctions] at hf' hg'
    rw [← hfshape, ← hgshape, eq_of_mem_latest hf' hg' ((signature_eq_of_shape hfshape).trans
      (hsignature.trans (signature_eq_of_shape hgshape).symm))]

end Names

section Foreign

theorem exists_resolve_iff {key : FunctionKey} : (∃ args, t.resolve key args = .ok f) ↔
    ∃ before after, t.overloads key = before ++ f :: after ∧
      ∀ g ∈ before, g.params.map Param.shape ≠ f.params.map Param.shape := by
  constructor
  · rintro ⟨args, h⟩
    obtain ⟨before, after, heq, hcheck, hbefore, -⟩ := resolve_eq_ok_iff.mp h
    refine ⟨before, after, heq, fun g hg hparams => ?_⟩
    have hg' := hbefore g hg (by rwa [check_eq_ok_iff, hparams, ← check_eq_ok_iff])
    rw [exactForms_eq, exactForms_eq, hparams] at hg'
    exact Nat.lt_irrefl _ hg'
  · rintro ⟨before, after, heq, hbefore⟩
    refine ⟨f.ownArguments, resolve_eq_ok_iff.mpr ⟨before, after, heq, f.check_ownArguments, ?_, ?_⟩⟩
    · intro g hg hcheck
      rw [exactForms_ownArguments]
      exact Nat.lt_of_not_le fun hle => hbefore g hg (shape_of_exactForms hcheck hle)
    · intro g hg hcheck
      have hlength : g.params.length = f.params.length := by
        simpa [ownArguments] using (check_eq_ok_iff.mp hcheck).length_eq
      rw [exactForms_ownArguments, ← hlength]
      exact g.exactForms_le f.ownArguments

/-- A function with another name leaves those of a name as they are, unless it replaces one of them. -/
theorem functionsNamed_addFunction_iff (hname : f.name ≠ n) :
    (t.addFunction f).functionsNamed n = t.functionsNamed n ↔
      ∀ g ∈ t.functionsNamed n, g.key = f.key → g.signature ≠ f.signature := by
  have hnamed : ∀ g ∈ t.functionsNamed n, g.key = .ofName n := fun g hg =>
    congrArg FunctionKey.ofName (eq_of_beq (List.mem_filter.mp hg).2)
  by_cases hkey : FunctionKey.ofName n = f.key
  · have hfilter : (t.addFunction f).functionsNamed n =
        (t.functionsNamed n).filter (·.signature ≠ f.signature) := by
      rw [functionsNamed, functionsNamed, overloads_addFunction, if_pos hkey, List.filter_append,
        List.filter_singleton, beq_false_of_ne hname, cond_false, List.append_nil, List.filter_comm]
    rw [hfilter, List.filter_eq_self]
    refine forall₂_congr fun g hg => ?_
    rw [decide_eq_true_eq]
    exact ⟨fun h _ => h, fun h => h ((hnamed g hg).trans hkey)⟩
  · rw [functionsNamed, functionsNamed, overloads_addFunction, if_neg hkey]
    exact iff_of_true rfl fun g hg hg' => absurd ((hnamed g hg).symm.trans hg') hkey

end Foreign

/-- Under each of some names just the functions with it are seen, of each shape the one added last, if and
only if no two of the names have one key and no signature stands for two shapes. Calls under a name may
lead to all functions that share its key and come first with their parameters, whatever their names, and
adding a function with another name leaves those of the name as they are just if it does not have the key
and signature of one. -/
theorem sees_remaining_iff (t : TypeInfo) {names : Set String} (hnames : ∀ f ∈ fs, f.name ∈ names) :
    let u := t.clearFunctions.addFunctions fs
    ((∀ n ∈ names, u.Sees n (remaining n fs)) ↔ Apart names fs) ∧
      (∀ n f, (∃ args, u.resolve (.ofName n) args = .ok f) ↔
        ∃ before after, u.overloads (.ofName n) = before ++ f :: after ∧
          ∀ g ∈ before, g.params.map Param.shape ≠ f.params.map Param.shape) ∧
      ∀ n f, f.name ≠ n → ((u.addFunction f).functionsNamed n = u.functionsNamed n ↔
        ∀ g ∈ u.functionsNamed n, g.key = f.key → g.signature ≠ f.signature) :=
  ⟨⟨apart_of_sees hnames, fun h _ => h.sees⟩, fun _ _ => exists_resolve_iff,
    fun _ _ => functionsNamed_addFunction_iff⟩

/-- A function of the host that takes nothing and gives nothing. -/
def chore (name : String) : Function := ⟨name, [], none, false, .host ⟨true, .nothing, 0⟩⟩

/-- Functions without parameters, of two names with one hash. -/
def homonyms : List Function := [chore "costarring", chore "liquid"]

/-- The one that is added first is gone. -/
theorem not_sees_homonyms : (∀ f ∈ homonyms, f.name ∈ ({"costarring", "liquid"} : Set String)) ∧
    ¬ ∀ n ∈ ({"costarring", "liquid"} : Set String),
      ((new "Bottle" ⟨8, 8⟩).clearFunctions.addFunctions homonyms).Sees n (remaining n homonyms) := by
  have hnames : ∀ f ∈ homonyms, f.name ∈ ({"costarring", "liquid"} : Set String) :=
    List.forall_mem_cons.mpr ⟨.inl rfl, List.forall_mem_singleton.mpr (.inr rfl)⟩
  refine ⟨hnames, fun hsees => ?_⟩
  have hapart := (sees_remaining_iff (new "Bottle" ⟨8, 8⟩) hnames).1.mp hsees
  have hkey : (chore "costarring").key = .ofName "liquid" := by decide +kernel
  exact absurd (hapart.keys _ List.mem_cons_self "liquid" (.inr rfl) hkey)
    (by decide : "costarring" ≠ "liquid")

end Flowscript.TypeInfo
