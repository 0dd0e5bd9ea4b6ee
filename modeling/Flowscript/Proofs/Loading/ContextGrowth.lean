import Flowscript.Proofs.Loading.DeclarationPlans
import Flowscript.Proofs.Types.MirroredCatalogues

/-! # What came since some time before

A context outgrows what it was at some time before: everything of that time is there as it was, and other
types without bases came later, besides other bodies. Types that came later can be removed again.
-/
namespace Flowscript

namespace Catalogue

variable {c₀ c : Catalogue} {t : TypeInfo} {id : TypeId}

/-- The types of some time before are there, and others without bases that came later. -/
structure Outgrows (c₀ c : Catalogue) : Prop extends c₀.Extends c where
  filed : c.Filed
  fresh : ∀ id h, c.handle? id = some h → c₀.handle? id = some h ∨ c₀.infos.size ≤ h
  bare : ∀ id h, c.handle? id = some h → c₀.infos.size ≤ h → (c.info h).bases = []
  events : c.events = c₀.events

theorem Outgrows.refl (hc : c.Filed) : c.Outgrows c where
  toExtends := .refl c
  filed := hc
  fresh _ _ hh := .inl hh
  bare _ _ hh hle := absurd (hc.lt_size hh) (Nat.not_lt.mpr hle)
  events := rfl

theorem Outgrows.le_of_new (h : c₀.Outgrows c) (hnew : c₀.handle? id = none) {j : Handle}
    (hj : c.handle? id = some j) : c₀.infos.size ≤ j := by
  refine (h.fresh id j hj).resolve_left fun hold => ?_
  rw [hnew] at hold
  cases hold

theorem index_foldl_modifyId (bases : List TypeId) (f : TypeInfo → TypeInfo) (c : Catalogue) :
    (bases.foldl (fun c base => c.modifyId base f) c).index = c.index ∧
      (bases.foldl (fun c base => c.modifyId base f) c).infos.size = c.infos.size := by
  induction bases generalizing c with
  | nil => exact ⟨rfl, rfl⟩
  | cons base bases ih =>
    obtain ⟨hindex, hsize⟩ := ih (c.modifyId base f)
    have hone : (c.modifyId base f).index = c.index ∧ (c.modifyId base f).infos.size = c.infos.size := by
      unfold modifyId
      split
      · exact ⟨rfl, by simp [modify]⟩
      · exact ⟨rfl, rfl⟩
    exact ⟨hindex.trans hone.1, hsize.trans hone.2⟩

theorem handle?_remove (c : Catalogue) (id id' : TypeId) :
    (c.remove id).2.handle? id' = if id' = id then none else c.handle? id' := by
  unfold remove
  cases hh : c.handle? id with
  | none =>
    dsimp only
    split
    · next hid => rw [hid, hh]
    · rfl
  | some h =>
    dsimp only
    rw [handle?, modify, (index_foldl_modifyId _ _ _).1, Std.HashMap.getElem?_erase]
    by_cases hid : id' = id
    · rw [if_pos hid, if_pos (beq_iff_eq.mpr hid.symm)]
    · rw [if_neg hid, if_neg fun heq => hid (beq_iff_eq.mp heq).symm]
      rfl

theorem size_remove (c : Catalogue) (id : TypeId) : (c.remove id).2.infos.size = c.infos.size := by
  unfold remove
  cases c.handle? id with
  | none => rfl
  | some h =>
    dsimp only
    rw [modify, Array.size_modify, (index_foldl_modifyId _ _ _).2]

theorem infos_remove (c : Catalogue) (id : TypeId) {h : Handle} (hh : c.handle? id = some h)
    (hbases : (c.info h).bases = []) :
    (c.remove id).2.infos = c.infos.modify h TypeInfo.clearFunctions ∧
      (c.remove id).2.events = c.events := by
  unfold remove
  rw [hh]
  simp only [hbases, List.foldl_nil]
  exact ⟨rfl, rfl⟩

theorem Outgrows.remove (h : c₀.Outgrows c) (hnew : c₀.handle? id = none) :
    c₀.Outgrows (c.remove id).2 ∧
      ∀ id' k, (c.remove id).2.handle? id' = some k → c.handle? id' = some k ∧ id' ≠ id := by
  cases hh : c.handle? id with
  | none =>
    have hremove : (c.remove id).2 = c := by rw [Catalogue.remove, hh]
    rw [hremove]
    refine ⟨h, fun id' k hk => ⟨hk, ?_⟩⟩
    rintro rfl
    rw [hh] at hk
    cases hk
  | some j =>
    have hle := h.le_of_new hnew hh
    have hbases := h.bare id j hh hle
    have hhandle : ∀ id' k, (c.remove id).2.handle? id' = some k → c.handle? id' = some k ∧ id' ≠ id := by
      intro id' k hk
      rw [handle?_remove] at hk
      split at hk
      · cases hk
      · next hne => exact ⟨hk, hne⟩
    obtain ⟨hinfos, hevents⟩ := infos_remove c id hh hbases
    refine ⟨⟨⟨fun id' k hk => ?_, fun k t ht => ?_⟩, h.filed.remove id, fun id' k hk => ?_,
      fun id' k hk hk' => ?_, hevents.trans h.events⟩, hhandle⟩
    · rw [handle?_remove, if_neg, h.handle id' k hk]
      rintro rfl
      rw [hnew] at hk
      cases hk
    · have hlt := (Array.getElem?_eq_some_iff.mp ht).choose
      rw [hinfos, Array.getElem?_modify, if_neg (by omega)]
      exact h.info k t ht
    · exact h.fresh id' k (hhandle id' k hk).1
    · have hinfo : (c.remove id).2.info k = (c.modify j TypeInfo.clearFunctions).info k := by
        rw [info, info, hinfos]
        rfl
      rw [hinfo, info_modify]
      split
      · exact h.bare id' k (hhandle id' k hk).1 hk'
      · exact h.bare id' k (hhandle id' k hk).1 hk'

theorem Outgrows.removeTypes (h : c₀.Outgrows c) {ids : List TypeId}
    (hnew : ∀ id ∈ ids, c₀.handle? id = none) :
    c₀.Outgrows (Loader.removeTypes c ids) ∧
      ∀ id k, (Loader.removeTypes c ids).handle? id = some k → c.handle? id = some k ∧ id ∉ ids := by
  induction ids generalizing c with
  | nil => exact ⟨h, fun id k hk => ⟨hk, List.not_mem_nil⟩⟩
  | cons id ids ih =>
    obtain ⟨hid, hids⟩ := List.forall_mem_cons.mp hnew
    obtain ⟨hremove, hone⟩ := h.remove hid
    obtain ⟨hall, hrest⟩ := ih hremove hids
    refine ⟨hall, fun id' k hk => ?_⟩
    obtain ⟨hk, hnot⟩ := hrest id' k hk
    obtain ⟨hk, hne⟩ := hone id' k hk
    exact ⟨hk, List.not_mem_cons_of_ne_of_not_mem hne hnot⟩

theorem Outgrows.heirs_eq (h : c₀.Outgrows c) (id : TypeId) : c.heirs id = c₀.heirs id := by
  obtain ⟨m, hm⟩ := Nat.exists_eq_add_of_le h.size_le
  have hhandle : ∀ j < c₀.infos.size, ∀ id, c.handle? id = some j ↔ c₀.handle? id = some j := fun j hj id =>
    ⟨fun hid => (h.fresh id j hid).resolve_right (Nat.not_le.mpr hj), h.handle id j⟩
  unfold heirs registered
  rw [hm, List.range_add, List.filterMap_append, List.filter_append]
  have hnew : (((List.range m).map (c₀.infos.size + ·)).filterMap fun j =>
      if c.handle? (c.info j).id = some j then some ((c.info j).id, j) else none).filter
        (fun p => (c.info p.2).bases.contains id) = [] := by
    refine List.filter_eq_nil_iff.mpr fun p hp => ?_
    obtain ⟨j, hj, hp⟩ := List.mem_filterMap.mp hp
    obtain ⟨i, -, rfl⟩ := List.mem_map.mp hj
    split at hp
    · next hregistered =>
      cases hp
      rw [h.bare _ _ hregistered (Nat.le_add_right _ _)]
      simp
    · cases hp
  have hold : ((List.range c₀.infos.size).filterMap fun j =>
      if c.handle? (c.info j).id = some j then some ((c.info j).id, j) else none) =
      (List.range c₀.infos.size).filterMap fun j =>
        if c₀.handle? (c₀.info j).id = some j then some ((c₀.info j).id, j) else none := by
    refine List.filterMap_congr fun j hj => ?_
    have hj := List.mem_range.mp hj
    rw [h.info_of_lt hj, ite_congr (propext (hhandle j hj _)) (fun _ => rfl) fun _ => rfl]
  rw [hnew, List.append_nil, hold]
  congr 1
  refine List.filter_congr fun p hp => ?_
  obtain ⟨j, hj, hp⟩ := List.mem_filterMap.mp hp
  split at hp
  · cases hp
    dsimp only
    rw [h.info_of_lt (List.mem_range.mp hj)]
  · cases hp

theorem Outgrows.grow (h : c₀.Outgrows c) (hbases : t.bases = []) (hid : t.id = .ofName t.name)
    (hnew : c.handle? t.id = none) : c₀.Outgrows (c.grow t) := by
  have hle := h.size_le
  refine ⟨⟨fun id j hj => ?_, fun j u hu => ?_⟩, h.filed.grow hid, fun id j hj => ?_, fun id j hj hlater => ?_,
    h.events⟩
  · rw [handle?_grow, if_neg, h.handle id j hj]
    rintro rfl
    rw [h.handle _ j hj] at hnew
    cases hnew
  · have hlt := (Array.getElem?_eq_some_iff.mp (h.info j u hu)).choose
    exact (Array.getElem?_push_lt hlt).trans (h.info j u hu ▸ (Array.getElem?_eq_getElem hlt).symm)
  · rw [handle?_grow] at hj
    split at hj
    · cases hj
      exact .inr hle
    · exact h.fresh id j hj
  · rw [handle?_grow] at hj
    rw [info_grow]
    split at hj
    · cases hj
      rw [if_pos rfl]
      exact hbases
    · next hne =>
      rw [if_neg (h.filed.lt_size hj).ne]
      exact h.bare id j hj hlater

theorem Outgrows.history (h : c₀.Outgrows c) (u : Array TypeChange) : c₀.Outgrows { c with history := u } where
  toExtends := ⟨h.handle, h.info⟩
  filed := ⟨h.filed.named, h.filed.indexed⟩
  fresh := h.fresh
  bare := h.bare
  events := h.events

theorem Outgrows.register (h : c₀.Outgrows c) (hbases : t.bases = []) (hid : t.id = .ofName t.name) :
    c₀.Outgrows (c.register t).2 := by
  cases hh : c.handle? t.id with
  | some i => exact (register_of_taken hh).symm ▸ h
  | none =>
    obtain ⟨hid', hname, hbases'⟩ := face_withHeirs ((c.grow t).heirs t.id) t
    rw [register_eq_grow hbases hh]
    exact (h.grow (hbases'.trans hbases) (by rw [hid', hname, hid]) (hid'.symm ▸ hh)).history _

theorem Outgrows.modify (h : c₀.Outgrows c) {j : Handle} (hj : c₀.infos.size ≤ j) {f : TypeInfo → TypeInfo}
    (hf : ∀ t, (f t).id = t.id ∧ (f t).name = t.name) (hbases : ∀ t, (f t).bases = t.bases) :
    c₀.Outgrows (c.modify j f) := by
  refine ⟨⟨h.handle, fun k t ht => ?_⟩, h.filed.modify j hf, h.fresh, fun id k hk hle => ?_, h.events⟩
  · have hlt := (Array.getElem?_eq_some_iff.mp ht).choose
    rw [Catalogue.modify, Array.getElem?_modify, if_neg (by omega)]
    exact h.info k t ht
  · rw [info_modify]
    split
    · exact (hbases _).trans (h.bare id k hk hle)
    · exact h.bare id k hk hle

theorem Outgrows.handleNamed?_cases (hc₀ : c₀.Filed) (h : c₀.Outgrows c) {name : String} {j : Handle}
    (hj : c.handleNamed? name = some j) : c₀.handleNamed? name = some j ∨
      c₀.infos.size ≤ j ∧ j < c.infos.size ∧ (c.info j).name = name := by
  obtain ⟨hhandle, hname⟩ := Option.filter_eq_some_iff.mp hj
  rcases h.fresh _ j hhandle with hold | hle
  · refine .inl (Option.filter_eq_some_iff.mpr ⟨hold, ?_⟩)
    rwa [h.info_of_lt (hc₀.lt_size hold)] at hname
  · exact .inr ⟨hle, h.filed.lt_size hhandle, beq_iff_eq.mp hname⟩

end Catalogue

namespace Loader

variable {c₀ c c' : Catalogue}

theorem Declares.outgrows {s : Script} {blocked : List String} {es : List ScriptError} {i : Handle}
    (hnew : c₀.handle? s.type = none) (h : c₀.Outgrows c) (hd : Declares c s blocked es i c') :
    c₀.Outgrows c' ∧ c₀.infos.size ≤ i := by
  cases hd with
  | @intro es ms judged =>
    obtain ⟨hid, hname, hbases⟩ := typeOf_eq c s.name ms
    refine ⟨h.register hbases (by rw [hid, hname]), ?_⟩
    rw [Catalogue.fst_register hbases, hid]
    change c₀.infos.size ≤ (c.handle? s.type).getD c.infos.size
    cases hi : c.handle? s.type with
    | none => exact h.size_le
    | some i => exact h.le_of_new hnew hi

theorem DeclaresAll.outgrows {plan : List (Candidate × List String)} {es : List ScriptError} {hs : List Handle}
    (hnew : ∀ r ∈ plan, c₀.handle? r.1.2.type = none) (h : c₀.Outgrows c) (hd : DeclaresAll c plan es hs c') :
    c₀.Outgrows c' ∧ ∀ i ∈ hs, c₀.infos.size ≤ i := by
  induction hd with
  | nil => exact ⟨h, List.forall_mem_nil _⟩
  | cons first _ ih =>
    obtain ⟨hone, hnew⟩ := List.forall_mem_cons.mp hnew
    obtain ⟨hnext, hfirst⟩ := first.outgrows hone h
    obtain ⟨hlast, hall⟩ := ih hnew hnext
    exact ⟨hlast, List.forall_mem_cons.mpr ⟨hfirst, hall⟩⟩

end Loader

namespace Context

structure Outgrows (k₀ k : Context) : Prop where
  catalogue : k₀.catalogue.Outgrows k.catalogue
  bodies_le : k₀.bodies.size ≤ k.bodies.size
  body : ∀ n < k₀.bodies.size, k.bodies[n]? = k₀.bodies[n]?

theorem Outgrows.lookup?_eq {k₀ k : Context} (hfiled : k₀.catalogue.Filed) (h : k₀.Outgrows k) {id : TypeId}
    {t : TypeInfo}
    (ht : k₀.catalogue.lookup? id = some t) : k.catalogue.lookup? id = some t := by
  obtain ⟨j, hj, rfl⟩ := Option.map_eq_some_iff.mp ht
  rw [Catalogue.lookup?, h.catalogue.handle id j hj, Option.map_some, hfiled.info_eq h.catalogue.toExtends hj]

/-- The types of a context mention only types and bodies that are there. -/
def Closed (k : Context) : Prop :=
  ∀ h < k.catalogue.infos.size,
    (k.catalogue.info h).Within (fun j => j < k.catalogue.infos.size) fun n => n < k.bodies.size

end Context

end Flowscript
