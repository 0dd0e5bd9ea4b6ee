import Mathlib.Data.List.Basic
import Flowscript.Type.Info

/-! # The functions of a type

A type keeps its functions under their keys. One that is added takes the place of one with the same key and
signature; the others stay. What is called is one of the functions under a key.
-/
namespace Flowscript

theorem FunctionKey.ofName_functionName (op : Operator) : FunctionKey.ofName op.functionName = .operator op := by
  cases op <;> decide +kernel

namespace TypeInfo

variable {t : TypeInfo} {key : FunctionKey} {f : Function}

theorem mem_functions_of_overloads (hf : f ∈ t.overloads key) : ∃ entry ∈ t.functions, f ∈ entry.2 := by
  unfold overloads at hf
  cases hlookup : t.functions.lookup key with
  | none =>
    rw [hlookup] at hf
    cases hf
  | some fs =>
    rw [hlookup] at hf
    obtain ⟨before, after, hsplit, -⟩ := List.lookup_eq_some_iff.mp hlookup
    exact ⟨(key, fs), hsplit ▸ List.mem_append_right before List.mem_cons_self, hf⟩

theorem mem_setOverloads {key : FunctionKey} {fs : List Function}
    {functions : List (FunctionKey × List Function)} {entry : FunctionKey × List Function}
    (h : entry ∈ setOverloads key fs functions) : entry = (key, fs) ∨ entry ∈ functions := by
  induction functions with
  | nil => exact .inl (List.mem_singleton.mp h)
  | cons first rest ih =>
    rw [setOverloads] at h
    split at h
    · next hkey =>
      rcases List.mem_cons.mp h with rfl | h
      · exact .inl (by rw [hkey])
      · exact .inr (List.mem_cons_of_mem _ h)
    · rcases List.mem_cons.mp h with rfl | h
      · exact .inr List.mem_cons_self
      · exact (ih h).imp_right (List.mem_cons_of_mem _)

theorem lookup_setOverloads (k : FunctionKey) (fs : List Function) (functions : List (FunctionKey × List Function)) :
    (setOverloads k fs functions).lookup key = if key = k then some fs else functions.lookup key := by
  have hkey : ∀ k', (key == k') = decide (key = k') := fun k' => by
    by_cases hk : key = k' <;> simp [hk]
  induction functions with
  | nil =>
    rw [setOverloads, List.lookup_cons, hkey]
    by_cases hk : key = k <;> simp [hk]
  | cons entry rest ih =>
    obtain ⟨k', gs⟩ := entry
    rw [setOverloads]
    by_cases hk' : k' = k
    · rw [if_pos hk', hk', List.lookup_cons, List.lookup_cons, hkey]
      by_cases hk : key = k <;> simp [hk]
    · rw [if_neg hk', List.lookup_cons, List.lookup_cons, ih, hkey]
      by_cases hk : key = k
      · have hne : key ≠ k' := fun h => hk' (h.symm.trans hk)
        simp only [if_pos hk, decide_eq_false hne]
      · simp only [if_neg hk]

theorem mem_overloads_addFunction {g : Function} (h : f ∈ (t.addFunction g).overloads key) :
    f = g ∨ f ∈ t.overloads key := by
  unfold addFunction overloads at h
  rw [lookup_setOverloads] at h
  split at h
  · next hkey =>
    rw [Option.getD_some, List.mem_append, List.mem_singleton] at h
    rcases h with h | h
    · rw [hkey]
      exact .inr (List.mem_of_mem_filter h)
    · exact .inl h
  · exact .inr h

theorem overloads_addFunction_of_ne {g : Function} (hkey : key ≠ g.key) :
    (t.addFunction g).overloads key = t.overloads key := by
  rw [overloads, addFunction, lookup_setOverloads, if_neg hkey]
  rfl

theorem overloads_addFunction_self :
    (t.addFunction f).overloads f.key = (t.overloads f.key).filter (·.signature != f.signature) ++ [f] := by
  rw [overloads, addFunction, lookup_setOverloads, if_pos rfl]
  rfl

theorem mem_overloads_of_ne {g : Function} (hf : f ∈ t.overloads key) (hne : f.signature ≠ g.signature) :
    f ∈ (t.addFunction g).overloads key := by
  rw [overloads, addFunction, lookup_setOverloads]
  split
  · next hkey =>
    rw [Option.getD_some, ← hkey]
    exact List.mem_append_left _ (List.mem_filter.mpr ⟨hkey ▸ hf, bne_iff_ne.mpr hne⟩)
  · exact hf

theorem mem_overloads_addFunctions {fs : List Function} (h : f ∈ (t.addFunctions fs).overloads key) :
    f ∈ fs ∨ f ∈ t.overloads key := by
  induction fs generalizing t with
  | nil => exact .inr h
  | cons g fs ih =>
    rcases ih (t := t.addFunction g) h with hmem | hmem
    · exact .inl (List.mem_cons_of_mem g hmem)
    · rcases mem_overloads_addFunction hmem with rfl | hmem
      · exact .inl List.mem_cons_self
      · exact .inr hmem

theorem overloads_addFunctions_of_ne {fs : List Function} (hkeys : ∀ g ∈ fs, key ≠ g.key) :
    (t.addFunctions fs).overloads key = t.overloads key := by
  induction fs generalizing t with
  | nil => rfl
  | cons g fs ih =>
    obtain ⟨hkey, hkeys⟩ := List.forall_mem_cons.mp hkeys
    exact (ih hkeys).trans (overloads_addFunction_of_ne hkey)

theorem addFunctions_eq (t : TypeInfo) (fs : List Function) :
    t.addFunctions fs = { t with functions := (t.addFunctions fs).functions } := by
  induction fs generalizing t with
  | nil => rfl
  | cons f fs ih =>
    rw [show t.addFunctions (f :: fs) = (t.addFunction f).addFunctions fs from rfl, ih]
    rfl

theorem mem_functions_addFunctions {t : TypeInfo} {fs : List Function} {entry : FunctionKey × List Function}
    {f : Function} (hentry : entry ∈ (t.addFunctions fs).functions) (hf : f ∈ entry.2) :
    f ∈ fs ∨ ∃ entry ∈ t.functions, f ∈ entry.2 := by
  induction fs generalizing t with
  | nil => exact .inr ⟨entry, hentry, hf⟩
  | cons g fs ih =>
    rcases ih (t := t.addFunction g) hentry with hmem | ⟨entry', hentry', hf⟩
    · exact .inl (List.mem_cons_of_mem _ hmem)
    · rcases mem_setOverloads hentry' with rfl | hentry'
      · rcases List.mem_append.mp hf with hf | hf
        · exact .inr (mem_functions_of_overloads (List.mem_of_mem_filter hf))
        · exact .inl (List.mem_singleton.mp hf ▸ List.mem_cons_self)
      · exact .inr ⟨entry', hentry', hf⟩

theorem mem_of_walkOverloads {args : List Function.Argument} {fs : List Function}
    {best : Option Function} {last : Option CallError} {f : Function}
    (h : (walkOverloads args fs best last).1 = some f) : f ∈ fs ∨ best = some f := by
  induction fs generalizing best last with
  | nil => exact .inr h
  | cons g fs ih =>
    unfold walkOverloads at h
    split at h
    · rcases ih h with hmem | hbetter
      · exact .inl (List.mem_cons_of_mem g hmem)
      · unfold better at hbetter
        split at hbetter
        · split at hbetter
          · cases hbetter
            exact .inl List.mem_cons_self
          · exact .inr hbetter
        · cases hbetter
          exact .inl List.mem_cons_self
    · exact (ih h).imp_left (List.mem_cons_of_mem g)

theorem mem_of_resolve {t : TypeInfo} {key : FunctionKey} {args : List Function.Argument}
    {f : Function} (h : t.resolve key args = .ok f) : f ∈ t.overloads key := by
  unfold resolve at h
  split at h
  · cases h
  · split at h
    · rename_i g e hwalk
      cases h
      have hfound : (walkOverloads args (t.overloads key) none none).1 = some f := by
        rw [hwalk]
      exact (mem_of_walkOverloads hfound).resolve_right (by simp)
    · cases h
    · cases h

theorem walkOverloads_nil (hparams : f.params = []) {fs : List Function} {best : Option Function}
    {last : Option CallError} (hothers : ∀ g ∈ fs, g.params = [] → g = f)
    (hbest : best = none ∧ f ∈ fs ∨ best = some f) : (walkOverloads [] fs best last).1 = some f := by
  induction fs generalizing best last with
  | nil =>
    rcases hbest with ⟨-, hmem⟩ | rfl
    · cases hmem
    · rfl
  | cons g fs ih =>
    obtain ⟨hg, hfs⟩ := List.forall_mem_cons.mp hothers
    rw [walkOverloads]
    by_cases hnone : g.params = []
    · cases hg hnone
      rw [show f.check [] = .ok () by rw [Function.check, hparams]; rfl]
      refine ih hfs (.inr ?_)
      rcases hbest with ⟨rfl, -⟩ | rfl
      · rfl
      · exact if_neg (Nat.lt_irrefl _)
    · rw [show g.check [] = .error _ from if_pos fun hlength => hnone (List.length_eq_zero_iff.mp hlength.symm)]
      refine ih hfs (hbest.imp_left (And.imp_right fun hmem => (List.mem_cons.mp hmem).resolve_left ?_))
      rintro rfl
      exact hnone hparams

/-- Without arguments, the only function without parameters is called. -/
theorem resolve_nil (hf : f ∈ t.overloads key) (hparams : f.params = [])
    (hothers : ∀ g ∈ t.overloads key, g.params = [] → g = f) : t.resolve key [] = .ok f := by
  have hwalk := @walkOverloads_nil f hparams _ none none hothers (.inl ⟨rfl, hf⟩)
  unfold resolve
  cases hfs : t.overloads key with
  | nil =>
    rw [hfs] at hf
    cases hf
  | cons g fs =>
    rw [hfs] at hwalk
    dsimp only
    split
    · next hfound =>
      rw [hfound] at hwalk
      cases hwalk
      rfl
    · next hnone =>
      rw [hnone] at hwalk
      cases hwalk
    · next hnone =>
      rw [hnone] at hwalk
      cases hwalk

end TypeInfo

end Flowscript
