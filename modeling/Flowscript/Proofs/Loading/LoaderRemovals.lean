import Flowscript.Proofs.Loading.RepeatedLoading

/-! # What a loader removes

A loader remembers the identities that its last load declared, and removes what is registered under them. It
removes nothing else; but a host may have removed a type and registered another one under its identity.
-/
namespace Flowscript

namespace Loader

/-- Types are kept under their identities when functions are declared. -/
theorem Outfits.filed {c c' : Catalogue} (h : Outfits c c') (hc : c.Filed) : c'.Filed := by
  have hface : ∀ k : Nat,
      c'.infos[k]?.map TypeInfo.clearFunctions = c.infos[k]?.map TypeInfo.clearFunctions := fun k => by
    simpa using congrArg (fun infos : Array TypeInfo => infos[k]?) h.bare
  constructor
  · intro k t ht
    have hsome := hface k
    rw [ht, Option.map_some] at hsome
    obtain ⟨u, hu, heq⟩ := Option.map_eq_some_iff.mp hsome.symm
    have hid : u.id = t.id := by simpa [TypeInfo.clearFunctions] using congrArg TypeInfo.id heq
    have hname : u.name = t.name := by simpa [TypeInfo.clearFunctions] using congrArg TypeInfo.name heq
    rw [← hid, ← hname]
    exact hc.named k u hu
  · intro id k hk
    rw [h.handle?_eq] at hk
    obtain ⟨u, hu, hid⟩ := hc.indexed id k hk
    have hsome := hface k
    rw [hu, Option.map_some] at hsome
    obtain ⟨t, ht, heq⟩ := Option.map_eq_some_iff.mp hsome
    have hsame : t.id = u.id := by simpa [TypeInfo.clearFunctions] using congrArg TypeInfo.id heq
    exact ⟨t, ht, hsame.trans hid⟩

variable {w : Workspace} {scripts : List Script} {worldType : String} {es : List ScriptError} {hs : List Handle}
  {c : Catalogue} {k : Context}

theorem Builds.keeps (h : Builds worldType scripts w es hs c k) {id : TypeId} {j : Handle}
    (hj : w.catalogue.handle? id = some j) :
    (built worldType scripts w).2.workspace.catalogue.handle? id = some j :=
  (h.handle?_eq id).trans (h.declares.grows.handle id j hj)

theorem Builds.registers (hc : w.catalogue.Filed) (h : Builds worldType scripts w es hs c k) {id : TypeId}
    {j : Handle} (hnew : w.catalogue.handle? id = none)
    (hj : (built worldType scripts w).2.workspace.catalogue.handle? id = some j) :
    w.catalogue.infos.size ≤ j ∧ j < (built worldType scripts w).2.workspace.catalogue.infos.size := by
  rw [h.handle?_eq] at hj
  have hsize : (built worldType scripts w).2.workspace.catalogue.infos.size = c.infos.size := by
    rw [Workspace.catalogue, h.context]
    dsimp only
    rw [h.furnished.catalogue, size_furnish]
  rw [hsize]
  refine ⟨(h.declares.size_le_handle hj).resolve_left fun hold => ?_, (h.filed hc).lt_size hj⟩
  rw [hnew] at hold
  cases hold

theorem Builds.filed_built (hc : w.catalogue.Filed) (h : Builds worldType scripts w es hs c k) :
    (built worldType scripts w).2.workspace.catalogue.Filed := by
  refine Outfits.filed (c := c) ?_ (h.filed hc)
  rw [Workspace.catalogue, h.context]
  exact h.furnished.outfits

/-- A load leaves what was registered apart from what the loader had loaded; what it declares is new. -/
structure Renewed (l : Loader) (c : Catalogue) (l' : Loader) (c' : Catalogue) : Prop where
  filed : c'.Filed
  size_le : c.infos.size ≤ c'.infos.size
  kept : ∀ id j, id ∉ l.types → c.handle? id = some j → c'.handle? id = some j
  renewed : ∀ id j, id ∈ l.types → c'.handle? id = some j → c.infos.size ≤ j
  declared : ∀ id j, id ∈ l'.types → c'.handle? id = some j → c.infos.size ≤ j ∧ j < c'.infos.size

theorem load_renewed {l : Loader} (hc : w.catalogue.Filed) (hthrough : (l.load scripts w).1.isSome) :
    Renewed l w.catalogue (l.load scripts w).2.1 (l.load scripts w).2.2.catalogue := by
  have hloader := (load_eq_built l scripts w).2.1
  obtain ⟨es, hs, c, k, h⟩ := exists_builds l.worldType scripts (l.unload w).2
  have hfiled := filed_unload l hc
  have hcatalogue : (l.unload w).2.catalogue = removeTypes w.catalogue l.types := by
    rw [Workspace.catalogue, unload_context]
  have hsize : (l.unload w).2.catalogue.infos.size = w.catalogue.infos.size := by
    rw [hcatalogue, Catalogue.size_removeTypes]
  rw [isSome_load] at hthrough
  rw [(load_built l scripts w).2, hloader, if_pos hthrough]
  have hle : (l.unload w).2.catalogue.infos.size ≤
      (built l.worldType scripts (l.unload w).2).2.workspace.catalogue.infos.size := by
    rw [Workspace.catalogue, Workspace.catalogue, h.context]
    dsimp only
    rw [h.furnished.catalogue, size_furnish]
    exact h.declares.grows.size_le
  refine ⟨h.filed_built hfiled, hsize ▸ hle, fun id j hid hj => h.keeps ?_, fun id j hid hj => ?_,
    fun id j hid hj => ?_⟩
  · rw [hcatalogue, Catalogue.handle?_removeTypes, if_neg hid, hj]
  · have hnew : (l.unload w).2.catalogue.handle? id = none := by
      rw [hcatalogue, Catalogue.handle?_removeTypes, if_pos hid]
    exact hsize ▸ (h.registers hfiled hnew hj).1
  · have hnew : (l.unload w).2.catalogue.handle? id = none := by
      rw [show id ∈ _ ↔ _ from Iff.rfl, h.types_eq hfiled] at hid
      obtain ⟨r, hr, rfl⟩ := List.mem_map.mp hid
      exact handle?_of_mem_schedule hr
    exact hsize ▸ h.registers hfiled hnew hj

end Loader

namespace Shared

open Loader

variable {s s' : Shared}

/-- What is registered under the identities that the loader declared is its own, or the host's. -/
structure Tenanted (s : Shared) : Prop where
  filed : s.catalogue.Filed
  own_lt : ∀ h ∈ s.own, h < s.catalogue.infos.size
  hosted_lt : ∀ h ∈ s.hosted, h < s.catalogue.infos.size
  later : ∀ h ∈ s.own, ∀ k ∈ s.hosted, h < k
  held : ∀ id ∈ s.loader.types, ∀ h, s.catalogue.handle? id = some h → h ∈ s.own ∨ h ∈ s.hosted

theorem Tenanted.removeTypes (h : s.Tenanted) (ids : List TypeId) {w : Workspace}
    (hw : w.catalogue = Loader.removeTypes s.catalogue ids) : Tenanted { s with workspace := w } := by
  have hsize : w.catalogue.infos.size = s.catalogue.infos.size := by rw [hw, Catalogue.size_removeTypes]
  refine ⟨?_, fun j hj => hsize ▸ h.own_lt j hj, fun j hj => hsize ▸ h.hosted_lt j hj, h.later,
    fun id hid j hj => h.held id hid j ?_⟩
  · show w.catalogue.Filed
    rw [hw]
    exact h.filed.removeTypes ids
  · rw [show Shared.catalogue _ = w.catalogue from rfl, hw, Catalogue.handle?_removeTypes] at hj
    split at hj
    · cases hj
    · exact hj

theorem Tenanted.change (h : s.Tenanted) (c : Change) : (s.change c).Tenanted := by
  cases c with
  | register t named =>
    have hw : (s.workspace.register t).2.catalogue = (s.catalogue.register t).2 := s.catalogue_register named
    rw [Shared.change, Catalogue.contains_eq]
    cases hh : s.catalogue.handle? t.id with
    | some k =>
      refine h.removeTypes [] ?_
      rw [hw, Catalogue.register_of_taken hh]
      rfl
    | none =>
      have hfst : (s.workspace.register t).1 = s.catalogue.infos.size := by
        rw [(register_context s.workspace t).1, show s.workspace.catalogue = s.catalogue from rfl,
          Catalogue.fst_register_any, hh, Option.getD_none]
      have hsize : (s.workspace.register t).2.catalogue.infos.size = s.catalogue.infos.size + 1 := by
        rw [hw, Catalogue.size_register, Catalogue.contains_eq, hh]
        rfl
      rw [hfst]
      constructor
      · show (s.workspace.register t).2.catalogue.Filed
        rw [hw]
        exact h.filed.register_any named
      · exact fun j hj => (h.own_lt j hj).trans (by show _ < (s.workspace.register t).2.catalogue.infos.size; omega)
      · refine List.forall_mem_cons.mpr ⟨?_, fun j hj => (h.hosted_lt j hj).trans ?_⟩
        · show _ < (s.workspace.register t).2.catalogue.infos.size
          omega
        · show _ < (s.workspace.register t).2.catalogue.infos.size
          omega
      · exact fun j hj => List.forall_mem_cons.mpr ⟨h.own_lt j hj, h.later j hj⟩
      · intro id hid j hj
        rw [show Shared.catalogue _ = (s.workspace.register t).2.catalogue from rfl, hw,
          Catalogue.handle?_register_any] at hj
        rcases Option.or_eq_some_iff.mp hj with hj | ⟨-, hj⟩
        · exact (h.held id hid j hj).imp_right (List.mem_cons_of_mem _)
        · split at hj
          · cases hj
            exact .inr List.mem_cons_self
          · cases hj
  | remove id =>
    exact h.removeTypes [id] (s.catalogue_remove id)
  | removeScripted =>
    obtain ⟨ids, hids⟩ : ∃ ids, s.workspace.removeScripted.2.catalogue = Loader.removeTypes s.catalogue ids :=
      ⟨_, congrArg Context.catalogue (removeAll_context s.workspace _)⟩
    exact h.removeTypes ids hids

theorem Tenanted.act (h : s.Tenanted) {d : Deed} (hs : s.act d = some s') : s'.Tenanted := by
  cases d with
  | load scripts =>
    obtain ⟨hthrough, rfl⟩ := act_load_iff.mp hs
    have hload := load_renewed h.filed hthrough
    have hsize : s.catalogue.infos.size + ((s.loader.load scripts s.workspace).2.2.catalogue.infos.size -
        s.catalogue.infos.size) = (s.loader.load scripts s.workspace).2.2.catalogue.infos.size :=
      Nat.add_sub_cancel' hload.size_le
    refine ⟨hload.filed, fun j hj => ?_, List.forall_mem_nil _, fun _ _ => List.forall_mem_nil _,
      fun id hid j hj => .inl (List.mem_range'_1.mpr ?_)⟩
    · exact (List.mem_range'_1.mp hj).2.trans_eq hsize
    · obtain ⟨hle, hlt⟩ := hload.declared id j hid hj
      exact ⟨hle, hlt.trans_eq hsize.symm⟩
  | unload =>
    cases act_unload_iff.mp hs
    exact ⟨filed_unload s.loader h.filed, List.forall_mem_nil _, List.forall_mem_nil _,
      fun _ _ => List.forall_mem_nil _, List.forall_mem_nil _⟩

/-- Whatever happens, what is registered under the identities that the loader declared is its own or the
host's. -/
theorem Tenanted.run {hs : List Happening} (h : s.Tenanted) (hrun : Shared.run hs s = some s') : s'.Tenanted :=
  run_induct (fun happening _ _ hs hstep => by
    cases happening with
    | host c =>
      cases hstep
      exact hs.change c
    | loader d => exact hs.act hstep) h hrun

theorem tenanted_start {l : Loader} {w : Workspace} (hl : l.types = []) (hw : w.catalogue.Filed) :
    Tenanted { loader := l, workspace := w } := by
  refine ⟨hw, List.forall_mem_nil _, List.forall_mem_nil _, fun _ _ => List.forall_mem_nil _, ?_⟩
  rw [hl]
  exact List.forall_mem_nil _

/-- A type that was registered is no longer. -/
def Removes (s s' : Shared) (h : Handle) : Prop :=
  ∃ id, s.catalogue.handle? id = some h ∧ s'.catalogue.handle? id ≠ some h

theorem Tenanted.removes_iff (h : s.Tenanted) {d : Deed} (hs : s.act d = some s') {j : Handle} :
    Removes s s' j ↔ ∃ id ∈ s.loader.types, s.catalogue.handle? id = some j := by
  cases d with
  | load scripts =>
    obtain ⟨hthrough, rfl⟩ := act_load_iff.mp hs
    have hload := load_renewed h.filed hthrough
    constructor
    · rintro ⟨id, hj, hgone⟩
      by_contra hnot
      exact hgone (hload.kept id j (fun hid => hnot ⟨id, hid, hj⟩) hj)
    · rintro ⟨id, hid, hj⟩
      exact ⟨id, hj, fun hj' => Nat.not_lt.mpr (hload.renewed id j hid hj') (h.filed.lt_size hj)⟩
  | unload =>
    cases act_unload_iff.mp hs
    have hcatalogue : (s.loader.unload s.workspace).2.catalogue = Loader.removeTypes s.catalogue s.loader.types := by
      rw [Workspace.catalogue, unload_context]
      rfl
    have hhandle : ∀ id, (s.loader.unload s.workspace).2.catalogue.handle? id =
        if id ∈ s.loader.types then none else s.catalogue.handle? id := fun id => by
      rw [hcatalogue, Catalogue.handle?_removeTypes]
    constructor
    · rintro ⟨id, hj, hgone⟩
      rw [show Shared.catalogue _ = (s.loader.unload s.workspace).2.catalogue from rfl, hhandle] at hgone
      split at hgone
      · next hid => exact ⟨id, hid, hj⟩
      · exact absurd hj hgone
    · rintro ⟨id, hid, hj⟩
      refine ⟨id, hj, ?_⟩
      rw [show Shared.catalogue _ = (s.loader.unload s.workspace).2.catalogue from rfl, hhandle, if_pos hid]
      exact (Option.some_ne_none j).symm

/-- Whatever the host and the loader did before, the loader removes types that its last load registered, and
types that the host registered since under identities that the load declared. Only its own it removes just if
there are none of these. -/
theorem act_removes_own_iff {l : Loader} {w : Workspace} (hl : l.Fresh) (hw : w.catalogue.Filed)
    {hs : List Happening} {d : Deed} (hrun : run hs { loader := l, workspace := w } = some s)
    (hact : s.act d = some s') :
    (∀ h, Removes s s' h → h ∈ s.own ∨ h ∈ s.hosted) ∧
      ((∀ h, Removes s s' h → h ∈ s.own) ↔
        ∀ id ∈ s.loader.types, ∀ h, s.catalogue.handle? id = some h → h ∉ s.hosted) := by
  have hs := (tenanted_start hl.2 hw).run hrun
  refine ⟨fun h hremoves => ?_, fun hall id hid h hh hhosted => ?_, fun hnone h hremoves => ?_⟩
  · obtain ⟨id, hid, hh⟩ := (hs.removes_iff hact).mp hremoves
    exact hs.held id hid h hh
  · have hown := hall h ((hs.removes_iff hact).mpr ⟨id, hid, hh⟩)
    exact absurd (hs.later h hown h hhosted) (lt_irrefl h)
  · obtain ⟨id, hid, hh⟩ := (hs.removes_iff hact).mp hremoves
    exact (hs.held id hid h hh).resolve_right (hnone id hid h hh)

theorem hosted_of_replace (s : Shared) (t : TypeInfo) (named : t.id = .ofName t.name) :
    ∃ h ∈ ((s.change (.remove t.id)).change (.register t named)).hosted,
      ((s.change (.remove t.id)).change (.register t named)).catalogue.handle? t.id = some h := by
  have hgone : (s.change (.remove t.id)).catalogue.handle? t.id = none := by
    rw [Shared.catalogue_remove, Catalogue.handle?_remove, if_pos rfl]
  obtain ⟨s₁, hs₁⟩ : ∃ s₁, s.change (.remove t.id) = s₁ := ⟨_, rfl⟩
  rw [hs₁] at hgone ⊢
  refine ⟨(s₁.workspace.register t).1, ?_, ?_⟩
  · rw [Shared.change, Catalogue.contains_eq, hgone]
    exact List.mem_cons_self
  · rw [Shared.catalogue_register, Catalogue.handle?_register_any, if_pos rfl, hgone,
      (register_context s₁.workspace t).1, Catalogue.fst_register_any,
      show s₁.workspace.catalogue.handle? t.id = none from hgone]
    rfl

/-- A load that gets through can happen first, and leaves the identities of the scripts that could use their
names. -/
theorem run_load_types {l : Loader} {w : Workspace} {scripts : List Script} (hc : w.catalogue.Filed)
    (hthrough : (l.load scripts w).1.isSome) (hs : List Happening) :
    ∃ s', run (.loader (.load scripts) :: hs) { loader := l, workspace := w } = run hs s' ∧
      s'.loader.types.Perm ((accepted (l.unload w).2.catalogue scripts).map (·.2.type)) := by
  obtain ⟨s', hloader, -, -, hrun⟩ := run_load (s := { loader := l, workspace := w }) hthrough hs
  refine ⟨s', hrun, ?_⟩
  rw [hloader, (load_eq_built l scripts w).2.1, if_pos (isSome_load l scripts w ▸ hthrough)]
  exact (built_precedes (filed_unload l hc) l.worldType scripts).1

/-- A script that declares a type without fields. -/
def lone : Script := { name := "A" }

def tenant : TypeInfo := .new "A" ⟨4, 4⟩

/-- A loader that unloads removes the type that the host registered in place of the loader's. -/
theorem unload_removes_tenant :
    ∃ s s', run [.loader (.load [lone]), .host (.remove tenant.id), .host (.register tenant rfl)]
        { loader := { worldType := "World" }, workspace := {} } = some s ∧
      s.act .unload = some s' ∧ ∃ h, Removes s s' h ∧ h ∉ s.own := by
  obtain ⟨l, hl⟩ : ∃ l : Loader, l = { worldType := "World" } := ⟨_, rfl⟩
  have hfresh : l.Fresh := by rw [hl]; exact ⟨rfl, rfl⟩
  have hthrough : (l.load [lone] {}).1.isSome :=
    isSome_load_of_functions (show ∀ s ∈ [lone], s.functions = [] by decide) {}
  obtain ⟨s₁, hrun, hperm⟩ := run_load_types filed_empty hthrough
    [.host (.remove tenant.id), .host (.register tenant rfl)]
  have htypes : s₁.loader.types = [tenant.id] := by
    have haccepted : accepted (l.unload {}).2.catalogue [lone] = numbered [lone] := by
      rw [Workspace.catalogue, unload_context, hfresh.1, hfresh.2]
      simp [accepted, numbered, lone, screen, Catalogue.contains, removeTypes, Workspace.catalogue]
    rw [haccepted] at hperm
    exact List.perm_singleton.mp hperm
  rw [hl] at hrun
  obtain ⟨h, hhosted, hh⟩ := hosted_of_replace s₁ tenant rfl
  refine ⟨_, _, hrun, act_unload_iff.mpr rfl, ?_⟩
  have hiff := (act_removes_own_iff (hl ▸ hfresh) filed_empty hrun (act_unload_iff.mpr rfl)).2
  by_contra hnone
  push Not at hnone
  exact hiff.mp hnone tenant.id (htypes ▸ List.mem_cons_self) h hh hhosted

end Shared

end Flowscript
