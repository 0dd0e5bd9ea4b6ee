import Flowscript.Proofs.Loading.LoaderRemovals

/-! # How a registry evolves

Whatever a host and a loader do, the registered types change by three kinds of moves: a type is registered,
one is removed, or one gets a function. What such moves preserve holds however long it goes on.
-/
namespace Flowscript

/-- A type has the identity of its name. -/
def TypeInfo.Named (t : TypeInfo) : Prop := t.id = .ofName t.name

/-- What a type is like before it is registered: it has the identity of its name and knows no heirs. -/
structure TypeInfo.AsBuilt (t : TypeInfo) : Prop where
  named : t.Named
  derived : t.derived = []

namespace Catalogue

/-- A catalogue changes at one place, where only types with some property are registered. -/
inductive Moves (P : TypeInfo → Prop) (c : Catalogue) : Catalogue → Prop where
  | register {t : TypeInfo} (ht : P t) : Moves P c (c.register t).2
  | remove (id : TypeId) : Moves P c (c.remove id).2
  | equip (h : Handle) (f : Function) : Moves P c (c.modify h (·.addFunction f))

/-- A catalogue changes, move by move. -/
def Evolves (P : TypeInfo → Prop) : Catalogue → Catalogue → Prop := Relation.ReflTransGen (Moves P)

namespace Evolves

variable {P Q : TypeInfo → Prop} {c c' c'' : Catalogue}

theorem refl (c : Catalogue) : c.Evolves P c := Relation.ReflTransGen.refl

theorem trans (h : c.Evolves P c') (h' : c'.Evolves P c'') : c.Evolves P c'' := Relation.ReflTransGen.trans h h'

theorem of_move (h : c.Moves P c') : c.Evolves P c' := Relation.ReflTransGen.single h

theorem mono (hPQ : ∀ t, P t → Q t) (h : c.Evolves P c') : c.Evolves Q c' := by
  refine Relation.ReflTransGen.mono (fun d d' hd => ?_) _ _ h
  cases hd with
  | register ht => exact .register (hPQ _ ht)
  | remove id => exact .remove id
  | equip h f => exact .equip h f

theorem induct {I : Catalogue → Prop} (hmoves : ∀ d d', I d → d.Moves P d' → I d') (hc : I c)
    (h : c.Evolves P c') : I c' := by
  induction h with
  | refl => exact hc
  | tail _ hmove ih => exact hmoves _ _ ih hmove

theorem keeps (h : c.Evolves P c') : c.Keeps c' := by
  refine h.induct (fun d d' hd hmove => hd.trans ?_) (.refl c)
  cases hmove with
  | register ht => exact .register d _
  | remove id => exact .remove d id
  | equip handle f => exact .modify d handle fun _ => rfl

theorem events_eq (h : c.Evolves P c') : c'.events = c.events := by
  have hfold : ∀ {β : Type} (f : Catalogue → β → Catalogue) (_ : ∀ d b, (f d b).events = d.events)
    (bs : List β)
      (d : Catalogue), (bs.foldl f d).events = d.events := by
    intro β f hf bs
    induction bs with
    | nil => exact fun d => rfl
    | cons b bs ih => exact fun d => (ih (f d b)).trans (hf d b)
  have hmodifyId : ∀ (g : TypeInfo → TypeInfo) (d : Catalogue) (id : TypeId),
    (d.modifyId id g).events = d.events := by
    intro g d id
    unfold modifyId
    cases d.handle? id <;> rfl
  refine h.induct (I := fun d => d.events = c.events) (fun d d' hd hmove => Eq.trans ?_ hd) rfl
  cases hmove with
  | @register t ht =>
    unfold register
    cases d.handle? t.id with
    | some k => rfl
    | none =>
      exact (hfold (fun e heir => e.modify d.infos.size (addDerived heir)) (fun _ _ => rfl) _ _).trans
        (hfold _ (hmodifyId (addDerived t.id)) t.bases _)
  | remove id =>
    unfold remove
    cases d.handle? id with
    | none => rfl
    | some k => exact hfold _ (hmodifyId (removeDerived id)) (d.info k).bases _
  | equip handle f => rfl

theorem removeTypes (c : Catalogue) (ids : List TypeId) : c.Evolves P (Loader.removeTypes c ids) := by
  induction ids generalizing c with
  | nil => exact .refl c
  | cons id ids ih => exact (of_move (.remove id)).trans (ih _)

theorem furnish (worldType : String) (c : Catalogue) (qs : List (Loader.Piece × Nat)) :
    c.Evolves P (Loader.furnish worldType c qs) := by
  induction qs generalizing c with
  | nil => exact .refl c
  | cons q qs ih => exact (of_move (.equip _ _)).trans (ih _)

end Evolves

end Catalogue

namespace NativeType

theorem asBuilt_info (t : NativeType) : t.info.AsBuilt := by
  refine ⟨t.id_info, ?_⟩
  rw [info, TypeInfo.addFunctions_eq]

end NativeType

theorem Catalogue.evolves_withPrimitives : ({} : Catalogue).Evolves TypeInfo.AsBuilt .withPrimitives := by
  have hall := List.foldlRecOn (motive := fun c => ({} : Catalogue).Evolves TypeInfo.AsBuilt c) NativeType.primitives
    (fun c t => (c.registerNative t).2) (.refl _) fun c hc t _ => hc.trans (.of_move (.register t.asBuilt_info))
  refine hall.trans ?_
  unfold withPrimitives modifyId
  dsimp only
  split
  · exact .of_move (.equip _ _)
  · exact .refl _

namespace Aggregate

theorem derived_info (c : Catalogue) (script : String) (layout : Layout) (parts : List Part) :
    (info c script layout parts).derived = [] := by
  rw [info, TypeInfo.addFunctions_eq]

end Aggregate

namespace Loader

open Catalogue

variable {c c' : Catalogue} {plan : List (Candidate × List String)} {es : List ScriptError} {hs : List Handle}

theorem asBuilt_typeOf (c : Catalogue) (script : String) (ms : List Member) : (typeOf c script ms).1.AsBuilt := by
  obtain ⟨hid, hname, -⟩ := typeOf_eq c script ms
  refine ⟨hid.trans (congrArg TypeId.ofName hname.symm), ?_⟩
  unfold typeOf
  split <;> exact Aggregate.derived_info ..

theorem DeclaresAll.evolves (h : DeclaresAll c plan es hs c') : c.Evolves TypeInfo.AsBuilt c' := by
  induction h with
  | nil c => exact .refl c
  | cons first _ ih =>
    cases first with
    | intro judged => exact (Evolves.of_move (.register (asBuilt_typeOf _ _ _))).trans ih

theorem unload_evolves (l : Loader) (w : Workspace) :
    w.catalogue.Evolves TypeInfo.AsBuilt (l.unload w).2.catalogue := by
  rw [Workspace.catalogue, Workspace.catalogue, unload_context]
  exact .removeTypes _ _

theorem load_evolves (l : Loader) (scripts : List Script) (w : Workspace) :
    w.catalogue.Evolves TypeInfo.AsBuilt (l.load scripts w).2.2.catalogue := by
  obtain ⟨es, hs, c, k, h⟩ := exists_builds l.worldType scripts (l.unload w).2
  refine (unload_evolves l w).trans (h.declares.evolves.trans ?_)
  rw [(load_built l scripts w).2, Workspace.catalogue, h.context]
  dsimp only
  rw [h.furnished.catalogue]
  exact .furnish _ _ _

end Loader

/-- If it registers a type, that has some property. -/
def Happening.Registers (P : TypeInfo → Prop) : Happening → Prop
  | .host (.register t _) => P t
  | _ => True

theorem Happening.registers_named (h : Happening) : h.Registers TypeInfo.Named := by
  cases h with
  | host change => cases change with
    | register t named => exact named
    | remove id => exact trivial
    | removeScripted => exact trivial
  | loader d => exact trivial

namespace Shared

open Catalogue

variable {P : TypeInfo → Prop} {s s' : Shared}

theorem moves_register (s : Shared) {t : TypeInfo} (named : t.id = .ofName t.name) (ht : P t) :
    s.catalogue.Moves P (s.change (.register t named)).catalogue := by
  rw [catalogue_register]
  exact .register ht

theorem moves_remove (s : Shared) (id : TypeId) : s.catalogue.Moves P (s.change (.remove id)).catalogue := by
  rw [catalogue_remove]
  exact .remove id

theorem step_evolves (hP : ∀ t : TypeInfo, t.AsBuilt → P t) {h : Happening} (hh : h.Registers P)
    (hs : s.step h = some s') : s.catalogue.Evolves P s'.catalogue := by
  cases h with
  | host change =>
    cases hs
    cases change with
    | register t named => exact .of_move (s.moves_register named hh)
    | remove id => exact .of_move (s.moves_remove id)
    | removeScripted =>
      obtain ⟨ids, hids⟩ : ∃ ids, (s.change .removeScripted).catalogue = Loader.removeTypes s.catalogue ids :=
        ⟨_, congrArg Context.catalogue (Loader.removeAll_context s.workspace _)⟩
      rw [hids]
      exact .removeTypes _ _
  | loader d =>
    cases d with
    | load scripts =>
      obtain ⟨-, rfl⟩ := act_load_iff.mp hs
      exact (Loader.load_evolves s.loader scripts s.workspace).mono hP
    | unload =>
      cases act_unload_iff.mp hs
      exact (Loader.unload_evolves s.loader s.workspace).mono hP

theorem run_evolves (hP : ∀ t : TypeInfo, t.AsBuilt → P t) {hs : List Happening} (hhs : ∀ h ∈ hs, h.Registers P)
    (hrun : run hs s = some s') : s.catalogue.Evolves P s'.catalogue := by
  induction hs generalizing s with
  | nil =>
    cases hrun
    exact .refl _
  | cons h hs ih =>
    obtain ⟨hfirst, hrest⟩ := List.forall_mem_cons.mp hhs
    obtain ⟨s₁, hs₁, hrun⟩ := Option.bind_eq_some_iff.mp hrun
    exact (step_evolves hP hfirst hs₁).trans (ih hrest hrun)

theorem run_evolves_named {hs : List Happening} (hrun : run hs s = some s') :
    s.catalogue.Evolves TypeInfo.Named s'.catalogue :=
  run_evolves (fun _ ht => ht.named) (fun h _ => h.registers_named) hrun

end Shared

end Flowscript

/-! ## What types are made of

Functions are added to registered types and taken away, and types learn of their heirs and forget them. All else
that is known of a type stays as it was registered. What a type is made of may depend on the types that were
registered before it, and on no others.
-/
namespace Flowscript

namespace TypeInfo

def makeup (t : TypeInfo) : TypeInfo := { t with functions := [], derived := [] }

theorem makeup_addFunctions (t : TypeInfo) (fs : List Function) : (t.addFunctions fs).makeup = t.makeup := by
  rw [addFunctions_eq]
  rfl

theorem makeup_withHeirs (heirs : List TypeId) (t : TypeInfo) : (Catalogue.withHeirs heirs t).makeup = t.makeup := by
  rw [Catalogue.withHeirs_eq]
  rfl

end TypeInfo

def Layered (Q : List TypeInfo → TypeInfo → Prop) (ts : List TypeInfo) : Prop :=
  ∀ before t, before ++ [t] <+: ts → Q before t

namespace Layered

variable {Q : List TypeInfo → TypeInfo → Prop} {ts : List TypeInfo} {t : TypeInfo}

theorem nil : Layered Q [] := fun before t h => absurd (List.prefix_nil.mp h)
    (List.append_ne_nil_of_right_ne_nil before (List.cons_ne_nil t []))

theorem concat (h : Layered Q ts) (ht : Q ts t) : Layered Q (ts ++ [t]) := by
  intro before u hu
  rcases List.prefix_concat_iff.mp hu with heq | hu
  · obtain ⟨rfl, hlast⟩ := List.append_inj' heq rfl
    cases hlast
    exact ht
  · exact h before u hu

end Layered

namespace Catalogue

variable {c c' : Catalogue} {t : TypeInfo} {id : TypeId} {P : TypeInfo → Prop}
  {Q : List TypeInfo → TypeInfo → Prop}

/-- What the types ever registered are made of, by handle. -/
def makeups (c : Catalogue) : List TypeInfo := c.infos.toList.map TypeInfo.makeup

theorem length_makeups (c : Catalogue) : c.makeups.length = c.infos.size := by
  rw [makeups, List.length_map, Array.length_toList]

theorem makeup_info (c : Catalogue) (h : Handle) : (c.info h).makeup = c.makeups.getD h default := by
  rw [info, makeups, Array.getD_eq_getD_getElem?, List.getD_eq_getElem?_getD, List.getElem?_map, Array.getElem?_toList]
  cases c.infos[h]? <;> rfl

theorem makeups_modify {f : TypeInfo → TypeInfo} (hf : ∀ t, (f t).makeup = t.makeup) (c : Catalogue) (h : Handle) :
    (c.modify h f).makeups = c.makeups := by
  rw [makeups, makeups, modify]
  refine List.ext_getElem (by simp) fun i hi hi' => ?_
  simp only [List.getElem_map, Array.getElem_toList, Array.getElem_modify]
  split
  · exact hf _
  · rfl

theorem makeups_modifyId {f : TypeInfo → TypeInfo} (hf : ∀ t, (f t).makeup = t.makeup) (c : Catalogue)
    (id : TypeId) :
    (c.modifyId id f).makeups = c.makeups := by
  unfold modifyId
  split
  · exact makeups_modify hf c _
  · rfl

theorem makeup_addDerived (id : TypeId) (t : TypeInfo) : (addDerived id t).makeup = t.makeup := by
  unfold addDerived
  split <;> rfl

theorem makeups_register (c : Catalogue) (t : TypeInfo) :
    (c.register t).2.makeups = if c.contains t.id then c.makeups else c.makeups ++ [t.makeup] := by
  rw [contains_eq]
  unfold register
  cases c.handle? t.id with
  | some h => rfl
  | none =>
    dsimp only
    have hgrow : (c.grow t).makeups = c.makeups ++ [t.makeup] := by
      rw [makeups, grow, Array.toList_push, List.map_append, List.map_singleton, ← makeups]
    have hbases := List.foldlRecOn (motive := fun d => d.makeups = c.makeups ++ [t.makeup]) t.bases
      (fun d base => d.modifyId base (addDerived t.id)) hgrow fun d hd base _ =>
        (makeups_modifyId (makeup_addDerived t.id) d base).trans hd
    exact List.foldlRecOn (motive := fun d => d.makeups = c.makeups ++ [t.makeup]) _
      (fun d heir => d.modify c.infos.size (addDerived heir)) hbases fun d hd heir _ =>
        (makeups_modify (makeup_addDerived heir) d _).trans hd

theorem makeups_remove (c : Catalogue) (id : TypeId) : (c.remove id).2.makeups = c.makeups := by
  unfold remove
  split
  · rfl
  · next h _ =>
    have hbases := List.foldlRecOn (motive := fun d => d.makeups = c.makeups) (c.info h).bases
      (fun d base => d.modifyId base (removeDerived id)) (b := { c with index := c.index.erase id }) rfl
      fun d hd base _ => (makeups_modifyId (f := removeDerived id) (fun _ => rfl) d base).trans hd
    exact (makeups_modify (f := TypeInfo.clearFunctions) (fun _ => rfl) _ _).trans hbases

theorem makeups_equip (c : Catalogue) (h : Handle) (f : Function) :
    (c.modify h (·.addFunction f)).makeups = c.makeups :=
  makeups_modify (f := (·.addFunction f)) (fun _ => rfl) c h

theorem Filed.move (hP : ∀ t, P t → t.Named) (hc : c.Filed) (h : c.Moves P c') : c'.Filed := by
  cases h with
  | register ht => exact hc.register_any (hP _ ht)
  | remove id => exact hc.remove id
  | equip h f => exact hc.modify h fun _ => ⟨rfl, rfl⟩

/-- A property that the types have which are registered, in view of those before them, all types have. -/
theorem layered_move (hQ : ∀ ts t, P t → Q ts t.makeup) (hc : Layered Q c.makeups) (h : c.Moves P c') :
    Layered Q c'.makeups := by
  cases h with
  | register ht =>
    rw [makeups_register]
    split
    · exact hc
    · exact hc.concat (hQ _ _ ht)
  | remove id => rwa [makeups_remove]
  | equip h f => rwa [makeups_equip]

theorem Evolves.layered (hQ : ∀ ts t, P t → Q ts t.makeup) (hc : Layered Q c.makeups) (h : c.Evolves P c') :
    Layered Q c'.makeups :=
  h.induct (fun _ _ => layered_move hQ) hc

end Catalogue

theorem Layered.info {Q : List TypeInfo → TypeInfo → Prop} {c : Catalogue} (hc : Layered Q c.makeups) {h : Handle}
    (hh : h < c.infos.size) : Q (c.makeups.take h) (c.info h).makeup := by
  have hlt : h < c.makeups.length := by rwa [c.length_makeups]
  refine hc _ _ ?_
  rw [c.makeup_info, List.getD_eq_getElem?_getD, List.getElem?_eq_getElem hlt, Option.getD_some,
    List.take_append_getElem hlt]
  exact List.take_prefix _ _

namespace Loader

open Catalogue

variable {c c' : Catalogue} {plan : List (Candidate × List String)} {es : List ScriptError} {hs : List Handle}
  {script : String} {blocked names : List String} {fields : List FieldDecl} {ms : List Member}
  {declared : Script → Prop} {Q : List TypeInfo → TypeInfo → Prop}

/-- The members of a type are some of the declared fields, with their types and defaults. They have names of their
own, and their types are registered. -/
structure Membership (c : Catalogue) (fields : List FieldDecl) (ms : List Member) : Prop where
  nodup : (ms.map (·.name)).Nodup
  registered : ∀ m ∈ ms, m.type < c.infos.size
  sublist : (ms.map fun m => (m.name, (c.info m.type).name, m.default)).Sublist
    (fields.map fun f => (f.name, f.type, f.default))

theorem membership_nil (c : Catalogue) (fields : List FieldDecl) : Membership c fields [] :=
  ⟨List.nodup_nil, List.forall_mem_nil _, List.nil_sublist _⟩

theorem JudgedAll.membership (hc : c.Filed) (h : JudgedAll c script blocked names fields es ms) :
    Membership c fields ms ∧ ∀ m ∈ ms, m.name ∉ names := by
  induction h with
  | nil names => exact ⟨membership_nil c [], List.forall_mem_nil _⟩
  | @cons names f fields es es' m ms first _ ih =>
    obtain ⟨⟨hnodup, hregistered, hsublist⟩, hnames⟩ := ih
    have hrest : ∀ m ∈ ms, m.name ∉ names := fun m hm hmem => hnames m hm (List.mem_cons_of_mem _ hmem)
    cases first with
    | refused => exact ⟨⟨hnodup, hregistered, hsublist.cons _⟩, hrest⟩
    | unreadable => exact ⟨⟨hnodup, hregistered, hsublist.cons _⟩, hrest⟩
    | @kept type hrefuse =>
      have hfresh : f.name ∉ names := fun hmem => by
        unfold refuseField? at hrefuse
        rw [if_pos (List.contains_iff_mem.mpr hmem)] at hrefuse
        cases hrefuse
      have hapart : f.name ∉ ms.map (·.name) := fun hmem => by
        obtain ⟨m, hm, hname⟩ := List.mem_map.mp hmem
        exact hnames m hm (hname ▸ List.mem_cons_self)
      have hhandle := handleNamed?_of_refuseField? hrefuse
      have hname : (c.info type).name = f.type := beq_iff_eq.mp (Option.filter_eq_some_iff.mp hhandle).2
      refine ⟨⟨List.nodup_cons.mpr ⟨hapart, hnodup⟩,
        List.forall_mem_cons.mpr ⟨hc.lt_size (handle?_of_handleNamed? hhandle), hregistered⟩, ?_⟩,
        List.forall_mem_cons.mpr ⟨hfresh, hrest⟩⟩
      rw [Option.toList_some, List.singleton_append, List.map_cons, List.map_cons, hname]
      exact hsublist.cons_cons _

/-- Declared types have a property in view of those before them, if these have it. -/
def Establishes (declared : Script → Prop) (Q : List TypeInfo → TypeInfo → Prop) : Prop :=
  ∀ (c : Catalogue) (s : Script) (ms : List Member), declared s → Membership c s.fields ms →
    Layered Q c.makeups →
    Q c.makeups (typeOf c s.name ms).1.makeup

theorem DeclaresAll.layered (hQ : Establishes declared Q) (hplan : ∀ r ∈ plan, declared r.1.2) (hc : c.Filed)
    (hold : Layered Q c.makeups) (h : DeclaresAll c plan es hs c') : Layered Q c'.makeups := by
  induction h with
  | nil => exact hold
  | @cons c c' c'' s blocked after es es' h hs first _ ih =>
    obtain ⟨hfirst, hrest⟩ := List.forall_mem_cons.mp hplan
    refine ih hrest (first.filed hc) ?_
    cases first with
    | @intro es ms judged =>
      rw [makeups_register]
      split
      · exact hold
      · exact hold.concat (hQ c s.2 ms hfirst (judged.membership hc).1 hold)

theorem load_layered (hQ : Establishes declared Q) (l : Loader) {scripts : List Script}
    (hscripts : ∀ s ∈ scripts, declared s) {w : Workspace} (hw : w.catalogue.Filed)
    (hold : Layered Q w.catalogue.makeups) : Layered Q (l.load scripts w).2.2.catalogue.makeups := by
  obtain ⟨es, hs, c, k, h⟩ := exists_builds l.worldType scripts (l.unload w).2
  have hunload : (l.unload w).2.catalogue.makeups = w.catalogue.makeups := by
    rw [Workspace.catalogue, unload_context]
    exact List.foldlRecOn (motive := fun d => d.makeups = w.catalogue.makeups) l.types _ rfl fun d hd id _ =>
      (makeups_remove d id).trans hd
  have hplan : ∀ r ∈ schedule (l.unload w).2.catalogue scripts, declared r.1.2 := fun r hr => by
    have haccepted := (schedule_perm _ scripts).mem_iff.mp (List.mem_map_of_mem hr)
    exact hscripts _ (script_of_numbered (mem_accepted_numbered haccepted))
  have hdeclared := h.declares.layered hQ hplan (filed_unload l hw) (hunload ▸ hold)
  have hfurnish (c : Catalogue) (qs : List (Piece × Nat)) : (furnish l.worldType c qs).makeups = c.makeups := by
    induction qs generalizing c with
    | nil => rfl
    | cons q qs ih => exact (ih _).trans (makeups_equip c _ _)
  rw [(load_built l scripts w).2, Workspace.catalogue, h.context]
  dsimp only
  rwa [h.furnished.catalogue, hfurnish]

end Loader

def Happening.Brings (declared : Script → Prop) : Happening → Prop
  | .loader (.load scripts) => ∀ s ∈ scripts, declared s
  | _ => True

theorem Happening.brings_any (h : Happening) : h.Brings fun _ => True := by
  unfold Happening.Brings
  split <;> simp

namespace Shared

open Catalogue

variable {s s' : Shared} {P : TypeInfo → Prop} {Q : List TypeInfo → TypeInfo → Prop} {declared : Script → Prop}

theorem step_filed (hc : s.catalogue.Filed) {h : Happening} (hs : s.step h = some s') : s'.catalogue.Filed :=
  (step_evolves (fun _ ht => ht.named) h.registers_named hs).induct
    (fun _ _ hd hmove => hd.move (fun _ ht => ht) hmove) hc

theorem step_layered (hP : ∀ ts t, P t → Q ts t.makeup) (hQ : Loader.Establishes declared Q) {h : Happening}
    (hhost : h.Registers P) (hload : h.Brings declared) (hc : s.catalogue.Filed)
    (hold : Layered Q s.catalogue.makeups) (hs : s.step h = some s') : Layered Q s'.catalogue.makeups := by
  cases h with
  | host change =>
    cases hs
    cases change with
    | register t named => exact layered_move hP hold (s.moves_register named hhost)
    | remove id => exact layered_move hP hold (s.moves_remove id)
    | removeScripted =>
      obtain ⟨ids, hids⟩ : ∃ ids, (s.change .removeScripted).catalogue = Loader.removeTypes s.catalogue ids :=
        ⟨_, congrArg Context.catalogue (Loader.removeAll_context s.workspace _)⟩
      rw [hids]
      exact (Evolves.removeTypes (P := P) s.catalogue ids).layered hP hold
  | loader d =>
    cases d with
    | load scripts =>
      obtain ⟨-, rfl⟩ := act_load_iff.mp hs
      exact Loader.load_layered hQ s.loader hload hc hold
    | unload =>
      cases act_unload_iff.mp hs
      rw [catalogue, Workspace.catalogue, Loader.unload_context]
      exact (Evolves.removeTypes (P := P) s.catalogue s.loader.types).layered hP hold

/-- A property that declared types and those registered by the host have, in view of the types before them, all
types have whatever the host and the loader do. -/
theorem run_layered (hP : ∀ ts t, P t → Q ts t.makeup) (hQ : Loader.Establishes declared Q) {hs : List Happening}
    (hhost : ∀ h ∈ hs, h.Registers P) (hload : ∀ h ∈ hs, h.Brings declared) (hc : s.catalogue.Filed)
    (hold : Layered Q s.catalogue.makeups) (hrun : run hs s = some s') : Layered Q s'.catalogue.makeups := by
  induction hs generalizing s with
  | nil =>
    cases hrun
    exact hold
  | cons h hs ih =>
    obtain ⟨hhfirst, hhrest⟩ := List.forall_mem_cons.mp hhost
    obtain ⟨hlfirst, hlrest⟩ := List.forall_mem_cons.mp hload
    obtain ⟨s₁, hs₁, hrun⟩ := Option.bind_eq_some_iff.mp hrun
    exact ih hhrest hlrest (step_filed hc hs₁) (step_layered hP hQ hhfirst hlfirst hc hold hs₁) hrun

theorem run_layered_of_evolves (hP : ∀ ts t, P t → Q ts t.makeup) (hnamed : ∀ t, P t → t.Named)
    (hQ : Loader.Establishes declared Q) {hs : List Happening} (hstart : ({} : Catalogue).Evolves P s.catalogue)
    (hhost : ∀ h ∈ hs, h.Registers P) (hload : ∀ h ∈ hs, h.Brings declared) (hrun : run hs s = some s') :
    Layered Q s'.catalogue.makeups := by
  have hfiled : s.catalogue.Filed := hstart.induct (fun d d' hd hmove => hd.move hnamed hmove) Plain.empty.filed
  exact run_layered hP hQ hhost hload hfiled (hstart.layered hP Layered.nil) hrun

end Shared

end Flowscript
