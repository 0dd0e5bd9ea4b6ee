import Flowscript.Proofs.Loading.HostTypes
import Flowscript.Proofs.Loading.ScriptTypes

/-! # A loader and its host

A loader shares the registry with its host, who may register and remove types whenever the loader is not at
work. What happens one after another is recorded here with the types that the last load registered and those
that the host registered since.
-/
namespace Flowscript

namespace Catalogue

variable {c : Catalogue} {t : TypeInfo} {id : TypeId}

/-- A type is registered under its identity unless that is taken, with bases or without. -/
theorem handle?_register_any (c : Catalogue) (t : TypeInfo) (id : TypeId) :
    (c.register t).2.handle? id = (c.handle? id).or (if id = t.id then some c.infos.size else none) := by
  unfold register
  cases hh : c.handle? t.id with
  | some k =>
    by_cases hid : id = t.id
    · rw [hid, hh, Option.some_or]
    · rw [if_neg hid, Option.or_none]
  | none =>
    dsimp only
    have hheirs : ∀ (ids : List TypeId) (d : Catalogue),
        (ids.foldl (fun d heir => d.modify c.infos.size (addDerived heir)) d).index = d.index := by
      intro ids
      induction ids with
      | nil => exact fun d => rfl
      | cons id ids ih => exact fun d => ih _
    rw [handle?, hheirs, (index_foldl_modifyId _ _ _).1, Std.HashMap.getElem?_insert]
    by_cases hid : id = t.id
    · rw [if_pos (beq_iff_eq.mpr hid.symm), if_pos hid, hid, hh, Option.none_or]
    · rw [if_neg (fun heq => hid (beq_iff_eq.mp heq).symm), if_neg hid, Option.or_none]
      rfl

theorem size_register (c : Catalogue) (t : TypeInfo) :
    (c.register t).2.infos.size = if c.contains t.id then c.infos.size else c.infos.size + 1 := by
  rw [contains_eq]
  unfold register
  cases hh : c.handle? t.id with
  | some k => rfl
  | none =>
    dsimp only
    have hheirs : ∀ (ids : List TypeId) (d : Catalogue),
        (ids.foldl (fun d heir => d.modify c.infos.size (addDerived heir)) d).infos.size = d.infos.size := by
      intro ids
      induction ids with
      | nil => exact fun d => rfl
      | cons id ids ih => exact fun d => (ih _).trans (by simp [modify])
    rw [hheirs, (index_foldl_modifyId _ _ _).2, Array.size_push]
    rfl

theorem fst_register_any (c : Catalogue) (t : TypeInfo) :
    (c.register t).1 = (c.handle? t.id).getD c.infos.size := by
  unfold register
  cases c.handle? t.id <;> rfl

theorem Filed.register_any (hc : c.Filed) (hid : t.id = .ofName t.name) : (c.register t).2.Filed := by
  unfold Catalogue.register
  split
  · exact hc
  · have hbases : (t.bases.foldl (fun c base => c.modifyId base (Catalogue.addDerived t.id)) (c.grow t)).Filed :=
      List.foldlRecOn t.bases _ (hc.grow hid) fun d hd base _ => by
        unfold Catalogue.modifyId
        split
        · exact hd.modify _ (Plain.addDerived_face t.id)
        · exact hd
    have hheirs := List.foldlRecOn (motive := Filed)
      (heirs (t.bases.foldl (fun c base => c.modifyId base (Catalogue.addDerived t.id)) (c.grow t)) t.id)
      (fun d heir => d.modify c.infos.size (Catalogue.addDerived heir)) hbases fun d hd heir _ =>
        hd.modify c.infos.size (Plain.addDerived_face heir)
    exact ⟨hheirs.named, hheirs.indexed⟩

theorem handle?_removeTypes (c : Catalogue) (ids : List TypeId) (id : TypeId) :
    (Loader.removeTypes c ids).handle? id = if id ∈ ids then none else c.handle? id := by
  induction ids generalizing c with
  | nil => rfl
  | cons id' ids ih =>
    rw [show Loader.removeTypes c (id' :: ids) = Loader.removeTypes (c.remove id').2 ids from rfl, ih,
      handle?_remove]
    by_cases hid : id = id' <;> by_cases hmem : id ∈ ids <;> simp [hid, hmem]

theorem size_removeTypes (c : Catalogue) (ids : List TypeId) :
    (Loader.removeTypes c ids).infos.size = c.infos.size := by
  induction ids generalizing c with
  | nil => rfl
  | cons id ids ih => exact (ih _).trans (size_remove c id)

theorem Filed.removeTypes (hc : c.Filed) (ids : List TypeId) : (Loader.removeTypes c ids).Filed := by
  induction ids generalizing c with
  | nil => exact hc
  | cons id ids ih => exact ih (hc.remove id)

end Catalogue

/-- What a host does to the registered types. -/
inductive Change where
  | register (t : TypeInfo) (named : t.id = .ofName t.name)
  | remove (id : TypeId)
  | removeScripted

/-- What a loader does. One that is dropped unloads. -/
inductive Deed where
  | load (scripts : List Script)
  | unload

inductive Happening where
  | host (change : Change)
  | loader (deed : Deed)

/-- A loader and the workspace it shares with its host. -/
structure Shared where
  loader : Loader
  workspace : Workspace
  /-- The handles of the types that the last load registered. -/
  own : List Handle := []
  /-- The handles of the types that the host registered since. -/
  hosted : List Handle := []

namespace Shared

def catalogue (s : Shared) : Catalogue := s.workspace.catalogue

def change : Change → Shared → Shared
  | .register t _, s =>
    { s with
      workspace := (s.workspace.register t).2
      hosted := if s.catalogue.contains t.id then s.hosted else (s.workspace.register t).1 :: s.hosted }
  | .remove id, s => { s with workspace := (s.workspace.remove id).2 }
  | .removeScripted, s => { s with workspace := s.workspace.removeScripted.2 }

/-- The loader does something; a load has to get through. -/
def act : Deed → Shared → Option Shared
  | .load scripts, s =>
    let (report, loader, workspace) := s.loader.load scripts s.workspace
    let registered := List.range' s.catalogue.infos.size
      (workspace.catalogue.infos.size - s.catalogue.infos.size)
    if report.isSome then some { loader, workspace, own := registered } else none
  | .unload, s =>
    let (loader, workspace) := s.loader.unload s.workspace
    some { loader, workspace }

def step : Happening → Shared → Option Shared
  | .host c, s => some (s.change c)
  | .loader d, s => s.act d

def run : List Happening → Shared → Option Shared
  | [], s => some s
  | h :: hs, s => (s.step h).bind (run hs)

theorem run_host (c : Change) (hs : List Happening) (s : Shared) : run (.host c :: hs) s = run hs (s.change c) := rfl

theorem catalogue_register (s : Shared) {t : TypeInfo} (named : t.id = .ofName t.name) :
    (s.change (.register t named)).catalogue = (s.catalogue.register t).2 :=
  congrArg Context.catalogue (Loader.register_context s.workspace t).2

theorem catalogue_remove (s : Shared) (id : TypeId) :
    (s.change (.remove id)).catalogue = (s.catalogue.remove id).2 :=
  congrArg Context.catalogue (Loader.remove_context s.workspace id)

theorem run_concat (hs : List Happening) (h : Happening) (s : Shared) :
    run (hs ++ [h]) s = (run hs s).bind (step h) := by
  induction hs generalizing s with
  | nil =>
    show (s.step h).bind some = s.step h
    exact Option.bind_fun_some _
  | cons first hs ih =>
    show (s.step first).bind (run (hs ++ [h])) = ((s.step first).bind (run hs)).bind (step h)
    rw [Option.bind_assoc]
    exact congrArg _ (funext ih)

theorem run_induct {P : Shared → Prop} (hstep : ∀ h s s', P s → s.step h = some s' → P s') {hs : List Happening}
    {s s' : Shared} (h : P s) (hrun : run hs s = some s') : P s' := by
  induction hs generalizing s with
  | nil =>
    cases hrun
    exact h
  | cons first hs ih =>
    obtain ⟨s₁, hs₁, hrun⟩ := Option.bind_eq_some_iff.mp hrun
    exact ih (hstep first s s₁ h hs₁) hrun

theorem act_load_iff {scripts : List Script} {s s' : Shared} :
    s.act (.load scripts) = some s' ↔ (s.loader.load scripts s.workspace).1.isSome ∧
      s' = { loader := (s.loader.load scripts s.workspace).2.1
             workspace := (s.loader.load scripts s.workspace).2.2
             own := List.range' s.catalogue.infos.size
              ((s.loader.load scripts s.workspace).2.2.catalogue.infos.size - s.catalogue.infos.size) } := by
  rw [act, Option.ite_none_right_eq_some, Option.some.injEq]
  exact and_congr Iff.rfl eq_comm

theorem act_unload_iff {s s' : Shared} :
    s.act .unload = some s' ↔ s' = { loader := (s.loader.unload s.workspace).1
                                     workspace := (s.loader.unload s.workspace).2 } := by
  rw [act, Option.some.injEq]
  exact eq_comm

theorem run_load {scripts : List Script} {s : Shared} (h : (s.loader.load scripts s.workspace).1.isSome)
    (hs : List Happening) : ∃ s', s'.loader = (s.loader.load scripts s.workspace).2.1 ∧
      s'.workspace = (s.loader.load scripts s.workspace).2.2 ∧ s.act (.load scripts) = some s' ∧
      run (.loader (.load scripts) :: hs) s = run hs s' := by
  refine ⟨_, rfl, rfl, act_load_iff.mpr ⟨h, rfl⟩, ?_⟩
  rw [run, step, act_load_iff.mpr ⟨h, rfl⟩]
  rfl

theorem bodies_change (c : Change) (s : Shared) :
    (s.change c).workspace.context.bodies = s.workspace.context.bodies ∧ (s.change c).loader = s.loader := by
  cases c with
  | register t named =>
    refine ⟨?_, rfl⟩
    show (s.workspace.register t).2.context.bodies = _
    rw [(Loader.register_context s.workspace t).2]
  | remove id =>
    refine ⟨?_, rfl⟩
    show (s.workspace.remove id).2.context.bodies = _
    rw [Loader.remove_context]
  | removeScripted =>
    refine ⟨?_, rfl⟩
    show s.workspace.removeScripted.2.context.bodies = _
    rw [Workspace.removeScripted, Loader.removeAll_context]

end Shared

end Flowscript
