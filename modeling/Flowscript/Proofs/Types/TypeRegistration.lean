import Flowscript.Proofs.Run.PinTyping
import Flowscript.Proofs.Types.FunctionTable

/-! # Registering a type without bases

A type without bases changes no other type when it is registered, so every type keeps its handle and
what is known of it. A type that another one names as a base learns of its heirs; nothing else of it
changes.
-/
namespace Flowscript.Catalogue

variable {c c' c'' : Catalogue} {t : TypeInfo} {id : TypeId} {h : Handle}

def heirs (c : Catalogue) (id : TypeId) : List TypeId :=
  (c.registered.filter fun (_, k) => (c.info k).bases.contains id).map (·.1)

def withHeirs (ids : List TypeId) (t : TypeInfo) : TypeInfo := ids.foldl (fun t id => addDerived id t) t

theorem withHeirs_eq (ids : List TypeId) (t : TypeInfo) :
    withHeirs ids t = { t with derived := (withHeirs ids t).derived } := by
  induction ids generalizing t with
  | nil => rfl
  | cons id ids ih =>
    rw [show withHeirs (id :: ids) t = withHeirs ids (addDerived id t) from rfl, ih]
    unfold addDerived
    split <;> rfl

theorem face_withHeirs (ids : List TypeId) (t : TypeInfo) :
    (withHeirs ids t).id = t.id ∧ (withHeirs ids t).name = t.name ∧ (withHeirs ids t).bases = t.bases := by
  rw [withHeirs_eq]
  exact ⟨rfl, rfl, rfl⟩

theorem overloads_withHeirs (heirs : List TypeId) (t : TypeInfo) (key : FunctionKey) :
    (withHeirs heirs t).overloads key = t.overloads key := by
  rw [withHeirs_eq]
  rfl

def grow (c : Catalogue) (t : TypeInfo) : Catalogue :=
  { c with infos := c.infos.push t, index := c.index.insert t.id c.infos.size }

theorem modify_push_last (infos : Array TypeInfo) (t : TypeInfo) (f : TypeInfo → TypeInfo) :
    (infos.push t).modify infos.size f = infos.push (f t) := by
  refine Array.ext (by simp) fun i hi hi' => ?_
  rw [Array.getElem_modify, Array.getElem_push, Array.getElem_push]
  rw [Array.size_push] at hi'
  by_cases hlast : i = infos.size
  · simp [hlast]
  · have hlt : i < infos.size := by omega
    simp [hlt, Ne.symm hlast]

theorem foldl_modify_last (infos : Array TypeInfo) (ids : List TypeId) (hc : c.infos = infos.push t) :
    ids.foldl (fun c heir => c.modify infos.size (addDerived heir)) c =
      { c with infos := infos.push (withHeirs ids t) } := by
  induction ids generalizing c t with
  | nil => rw [withHeirs, List.foldl_nil, List.foldl_nil, ← hc]
  | cons id ids ih =>
    have hstep : c.modify infos.size (addDerived id) = { c with infos := infos.push (addDerived id t) } := by
      rw [modify, hc, modify_push_last]
    rw [List.foldl_cons, hstep, ih rfl, withHeirs, withHeirs, List.foldl_cons]

theorem register_of_taken (hh : c.handle? t.id = some h) : c.register t = (h, c) := by
  rw [register, hh]

theorem register_of_fresh (hbases : t.bases = []) (hh : c.handle? t.id = none) :
    c.register t = (c.infos.size,
      { c.grow t with
        infos := c.infos.push (withHeirs ((c.grow t).heirs t.id) t)
        history := c.history.push (.added t.id t.name) }) := by
  rw [register, hh]
  simp only [hbases, List.foldl_nil]
  rw [foldl_modify_last c.infos (t := t) _ rfl]
  rfl

section Register

variable (hbases : t.bases = [])
include hbases

theorem handle?_register :
    (c.register t).2.handle? id =
      (c.handle? id).or (if id = t.id then some c.infos.size else none) := by
  cases hh : c.handle? t.id with
  | some k =>
    rw [register_of_taken hh]
    by_cases hid : id = t.id
    · rw [hid, hh, Option.some_or]
    · rw [if_neg hid, Option.or_none]
  | none =>
    rw [register_of_fresh hbases hh]
    show (c.index.insert t.id c.infos.size)[id]? = _
    rw [Std.HashMap.getElem?_insert]
    by_cases hid : id = t.id
    · rw [if_pos (beq_iff_eq.mpr hid.symm), if_pos hid, hid, hh, Option.none_or]
    · rw [if_neg (fun heq => hid (beq_iff_eq.mp heq).symm), if_neg hid, Option.or_none]
      rfl

theorem fst_register : (c.register t).1 = (c.handle? t.id).getD c.infos.size := by
  cases hh : c.handle? t.id with
  | some k => rw [register_of_taken hh, Option.getD_some]
  | none => rw [register_of_fresh hbases hh, Option.getD_none]

end Register

theorem register_first {t : TypeInfo} (hbases : t.bases = []) :
    (({} : Catalogue).register t).2.infos.size = 1 ∧
      (∀ id, (({} : Catalogue).register t).2.handle? id = if id = t.id then some 0 else none) ∧
      ∃ heirs, (({} : Catalogue).register t).2.info 0 = withHeirs heirs t := by
  have hnone (id : TypeId) : ({} : Catalogue).handle? id = none := by simp [handle?]
  refine ⟨?_, fun id => ?_, (({} : Catalogue).grow t).heirs t.id, ?_⟩
  · rw [register_of_fresh hbases (hnone _)]
    rfl
  · rw [handle?_register hbases, hnone, Option.none_or]
    rfl
  · rw [register_of_fresh hbases (hnone _)]
    rfl

/-- All types are there still, as they were. -/
structure Extends (c c' : Catalogue) : Prop where
  handle : ∀ id h, c.handle? id = some h → c'.handle? id = some h
  info : ∀ (h : Handle) (t : TypeInfo), c.infos[h]? = some t → c'.infos[h]? = some t

namespace Extends

theorem refl (c : Catalogue) : c.Extends c := ⟨fun _ _ h => h, fun _ _ h => h⟩

theorem trans (h : c.Extends c') (h' : c'.Extends c'') : c.Extends c'' :=
  ⟨fun id k hk => h'.handle id k (h.handle id k hk), fun k t ht => h'.info k t (h.info k t ht)⟩

theorem size_le (h : c.Extends c') : c.infos.size ≤ c'.infos.size := by
  by_contra hlt
  rw [not_le] at hlt
  have hget := h.info _ _ (Array.getElem?_eq_getElem hlt)
  rw [Array.getElem?_eq_none le_rfl] at hget
  cases hget

theorem register (hbases : t.bases = []) : c.Extends (c.register t).2 := by
  refine ⟨fun id k hk => by rw [handle?_register hbases, hk, Option.some_or], fun k u hu => ?_⟩
  cases hh : c.handle? t.id with
  | some j => rwa [register_of_taken hh]
  | none =>
    rw [register_of_fresh hbases hh]
    have hlt := (Array.getElem?_eq_some_iff.mp hu).choose
    show (c.infos.push _)[k]? = some u
    rw [Array.getElem?_push_lt hlt, ← hu, Array.getElem?_eq_getElem hlt]

end Extends

theorem contains_eq (c : Catalogue) (id : TypeId) : c.contains id = (c.handle? id).isSome :=
  Std.HashMap.contains_eq_isSome_getElem?

theorem info_of_getElem? (hh : c.infos[h]? = some t) : c.info h = t := by
  rw [info, Array.getD_eq_getD_getElem?, hh, Option.getD_some]

theorem Extends.info_of_lt (h : c.Extends c') {k : Handle} (hk : k < c.infos.size) : c'.info k = c.info k := by
  rw [info_of_getElem? (h.info k _ (Array.getElem?_eq_getElem hk)), info_of_getElem? (Array.getElem?_eq_getElem hk)]

namespace Filed

theorem lt_size (hc : c.Filed) (hh : c.handle? id = some h) : h < c.infos.size := by
  obtain ⟨t, ht, -⟩ := hc.indexed id h hh
  exact (Array.getElem?_eq_some_iff.mp ht).choose

theorem info_eq (hc : c.Filed) (hext : c.Extends c') (hh : c.handle? id = some h) :
    c'.info h = c.info h := by
  obtain ⟨t, ht, -⟩ := hc.indexed id h hh
  rw [info_of_getElem? ht, info_of_getElem? (hext.info h t ht)]

theorem info_id (hc : c.Filed) (hh : c.handle? id = some h) : (c.info h).id = id := by
  obtain ⟨t, ht, hid⟩ := hc.indexed id h hh
  rw [info_of_getElem? ht, hid]

theorem register (hc : c.Filed) (hbases : t.bases = []) (hid : t.id = .ofName t.name) :
    (c.register t).2.Filed := by
  cases hh : c.handle? t.id with
  | some k => rwa [register_of_taken hh]
  | none =>
    have hext := Extends.register (c := c) hbases
    constructor
    · intro k u hu
      rw [register_of_fresh hbases hh] at hu
      rw [Array.getElem?_push] at hu
      split at hu
      · rw [← Option.some.inj hu, withHeirs_eq]
        exact hid
      · exact hc.named k u hu
    · intro id k hk
      rw [handle?_register hbases] at hk
      rcases Option.or_eq_some_iff.mp hk with hk | ⟨-, hk⟩
      · obtain ⟨u, hu, huid⟩ := hc.indexed id k hk
        exact ⟨u, hext.info k u hu, huid⟩
      · split at hk
        · next hsame =>
          rw [← Option.some.inj hk, register_of_fresh hbases hh]
          refine ⟨_, Array.getElem?_push_size, ?_⟩
          rw [withHeirs_eq]
          exact hsame.symm
        · cases hk

theorem modify (hc : c.Filed) (k : Handle) {f : TypeInfo → TypeInfo}
    (hf : ∀ t, (f t).id = t.id ∧ (f t).name = t.name) : (c.modify k f).Filed := by
  have hface : ∀ (j : Handle) (u : TypeInfo), c.infos[j]? = some u →
      ∃ t : TypeInfo, (c.modify k f).infos[j]? = some t ∧ t.id = u.id ∧ t.name = u.name := by
    intro j u hu
    simp only [Catalogue.modify, Array.getElem?_modify, hu]
    split
    · exact ⟨f u, rfl, hf u⟩
    · exact ⟨u, rfl, rfl, rfl⟩
  constructor
  · intro j t ht
    have hlt : j < c.infos.size := by
      have := (Array.getElem?_eq_some_iff.mp ht).choose
      simpa [Catalogue.modify] using this
    obtain ⟨u, hu, hid, hname⟩ := hface j _ (Array.getElem?_eq_getElem hlt)
    rw [ht] at hu
    cases hu
    rw [hid, hname]
    exact hc.named j _ (Array.getElem?_eq_getElem hlt)
  · intro id j hj
    obtain ⟨u, hu, hid⟩ := hc.indexed id j hj
    obtain ⟨t, ht, htid, -⟩ := hface j u hu
    exact ⟨t, ht, htid.trans hid⟩

theorem remove (hc : c.Filed) (id : TypeId) : (c.remove id).2.Filed := by
  unfold Catalogue.remove
  split
  · exact hc
  · rename_i k _
    have herase : ({ c with index := c.index.erase id } : Catalogue).Filed := by
      refine ⟨hc.named, fun id' k hk => hc.indexed id' k ?_⟩
      unfold handle? at hk ⊢
      rw [Std.HashMap.getElem?_erase] at hk
      split at hk
      · cases hk
      · exact hk
    have hbases : ∀ (bases : List TypeId) (c : Catalogue), c.Filed →
        (bases.foldl (fun c base => c.modifyId base (removeDerived id)) c).Filed := by
      intro bases
      induction bases with
      | nil => exact fun c hc => hc
      | cons base bases ih =>
        intro c hc
        refine ih _ ?_
        show (c.modifyId base (removeDerived id)).Filed
        unfold modifyId
        split
        · exact hc.modify _ fun t => ⟨rfl, rfl⟩
        · exact hc
    have hfiled := (hbases (c.info k).bases _ herase).modify k (f := TypeInfo.clearFunctions) fun t => ⟨rfl, rfl⟩
    exact ⟨hfiled.named, hfiled.indexed⟩

/-- A name that was not known is known once its type is registered, unless its identity was taken. -/
theorem handleNamed?_register (hc : c.Filed) (hbases : t.bases = []) (hid : t.id = .ofName t.name)
    (name : String) : (c.register t).2.handleNamed? name = none ↔
      c.handleNamed? name = none ∧ (c.contains t.id = true ∨ name ≠ t.name) := by
  rw [contains_eq]
  unfold handleNamed?
  cases hh : c.handle? (.ofName name) with
  | some k =>
    rw [handle?_register hbases, hh, Option.some_or, Option.filter_some, Option.filter_some,
      hc.info_eq (Extends.register hbases) hh]
    constructor
    · intro hnone
      refine ⟨hnone, ?_⟩
      by_cases hname : name = t.name
      · rw [hid, ← hname, hh]
        exact .inl rfl
      · exact .inr hname
    · exact fun hnone => hnone.1
  | none =>
    rw [handle?_register hbases, hh, Option.none_or]
    by_cases hsame : TypeId.ofName name = t.id
    · rw [if_pos hsame, Option.filter_some, ← hsame, hh, register_of_fresh hbases (hsame ▸ hh)]
      rw [info_of_getElem? (t := withHeirs ((c.grow t).heirs t.id) t) Array.getElem?_push_size, withHeirs_eq]
      by_cases hname : t.name = name
      · simp [hname]
      · simp [hname, Ne.symm hname]
    · have hname : name ≠ t.name := fun hname => hsame (hname ▸ hid.symm)
      simp [hsame, hname]

end Filed

end Flowscript.Catalogue
