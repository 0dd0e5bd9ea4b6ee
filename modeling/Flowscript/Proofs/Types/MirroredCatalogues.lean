import Flowscript.Proofs.Graph.RerouteChains
import Flowscript.Proofs.Types.Renumbering
import Flowscript.Proofs.Types.SuccessorSearch
import Flowscript.Proofs.Types.TypeRegistration

/-! # Deriving from a type

The walk from a type to its bases finds every type that a chain of bases leads to. Types that are no
longer registered are not walked through, so they do not matter for what derives from what.
-/
namespace Flowscript.Catalogue

variable {c c' : Catalogue}

/-- The bases of the type registered under an identity, the last one first. -/
def basesOf (c : Catalogue) (type : TypeId) : List TypeId :=
  match c.lookup? type with
  | some t => t.bases.reverse
  | none => []

theorem reaches_eq_search (c : Catalogue) (base : TypeId) (fuel : Nat) (seen stack : List TypeId) :
    c.reaches base fuel seen stack = search (fun type => type) c.basesOf base fuel seen stack := by
  induction fuel generalizing seen stack with
  | zero => rfl
  | succ fuel ih =>
    cases stack with
    | nil => rfl
    | cons type stack =>
      rw [reaches, search, ih, ih, basesOf]
      cases c.lookup? type <;> rfl

theorem leadsTo_basesOf_iff {type base : TypeId} :
    LeadsTo c.basesOf type base ↔ c.Derives type base := by
  have hstep : (fun type base => base ∈ c.basesOf type) =
      fun type base => ∃ t, c.lookup? type = some t ∧ base ∈ t.bases := by
    funext type base
    unfold basesOf
    cases c.lookup? type with
    | none => simp
    | some t => simp
  rw [LeadsTo, Derives, hstep]

section Bound

def baseCount (c : Catalogue) (type : TypeId) : Nat := (c.basesOf type).length

theorem mem_registered_iff {type : TypeId} {h : Handle} (hc : c.Filed) :
    (type, h) ∈ c.registered ↔ c.handle? type = some h := by
  simp only [registered, List.mem_filterMap, List.mem_range]
  constructor
  · rintro ⟨k, -, hk⟩
    split at hk
    · next hhandle =>
      cases hk
      exact hhandle
    · cases hk
  · intro hh
    refine ⟨h, hc.lt_size hh, ?_⟩
    rw [hc.info_id hh, if_pos hh]

theorem searchable_basesOf (hc : c.Filed) :
    Searchable (fun type => type) c.basesOf (fun _ => True) (c.registered.map (·.1)) c.baseCount := by
  refine ⟨fun _ _ _ _ => trivial, fun _ _ _ _ h => h, fun type _ => ?_⟩
  split
  · exact le_rfl
  · next hnot =>
    have hnone : c.handle? type = none := by
      cases hh : c.handle? type with
      | none => rfl
      | some h => exact absurd (List.mem_map_of_mem ((mem_registered_iff hc).mpr hh)) hnot
    rw [basesOf, lookup?, hnone]
    exact le_rfl

theorem unseen_lt_walkBound (c : Catalogue) :
    1 + unseen (c.registered.map (·.1)) c.baseCount [] ≤ c.walkBound := by
  have hfold : ∀ (ts : List TypeInfo) n,
      ts.foldl (fun n t => n + t.bases.length + 1) n = n + (ts.map fun t => t.bases.length + 1).sum := by
    intro ts
    induction ts with
    | nil => exact fun n => rfl
    | cons t ts ih =>
      intro n
      have ih := ih (n + t.bases.length + 1)
      rw [List.foldl_cons, ih, List.map_cons, List.sum_cons]
      omega
  have hinfos : c.infos.toList = (List.range c.infos.size).map c.info := by
    refine List.ext_getElem (by simp) fun h hh hh' => ?_
    simp only [List.length_map, List.length_range] at hh'
    rw [List.getElem_map, List.getElem_range, Array.getElem_toList,
      info_of_getElem? (Array.getElem?_eq_getElem hh')]
  have hregistered : ∀ hs : List Handle,
      ((hs.filterMap fun h => if c.handle? (c.info h).id = some h then some ((c.info h).id, h) else none).map
        fun p => c.baseCount p.1).sum ≤ (hs.map fun h => (c.info h).bases.length + 1).sum := by
    intro hs
    induction hs with
    | nil => exact le_rfl
    | cons h hs ih =>
      rw [List.filterMap_cons, List.map_cons, List.sum_cons]
      split
      · next hnone => omega
      · next p hsome =>
        split at hsome
        · next hhandle =>
          cases hsome
          rw [List.map_cons, List.sum_cons, baseCount, basesOf, lookup?, hhandle]
          simp only [Option.map_some, List.length_reverse]
          omega
        · cases hsome
  have hbound := hregistered (List.range c.infos.size)
  simp only [unseen, List.not_mem_nil, if_false, List.map_map]
  rw [walkBound, ← Array.foldl_toList, hfold, hinfos, List.map_map]
  simp only [Function.comp_def]
  unfold registered
  dsimp only
  omega

end Bound

theorem isDerivedFrom_iff (hc : c.Filed) {type base : TypeId} :
    c.isDerivedFrom type base = true ↔ c.Derives type base := by
  rw [isDerivedFrom, reaches_eq_search,
    search_iff (searchable_basesOf hc) (fun _ _ => trivial) (unseen_lt_walkBound c)]
  constructor
  · rintro ⟨x, hx, y, hy, rfl⟩
    rw [List.mem_singleton.mp hx] at hy
    exact leadsTo_basesOf_iff.mp hy
  · exact fun h => ⟨type, List.mem_singleton_self _, base, leadsTo_basesOf_iff.mpr h, rfl⟩

theorem isDerivedFrom_congr (hc : c.Filed) (hc' : c'.Filed) (h : ∀ type, c'.basesOf type = c.basesOf type)
    (type base : TypeId) : c'.isDerivedFrom type base = c.isDerivedFrom type base := by
  rw [Bool.eq_iff_iff, isDerivedFrom_iff hc, isDerivedFrom_iff hc', ← leadsTo_basesOf_iff,
    ← leadsTo_basesOf_iff, funext h]

end Flowscript.Catalogue

/-! ## Catalogues of the same types

Two catalogues may know the same types under other numbers. They then give the same answers, up to the
numbers in them. One catalogue mirrors another if those types are numbered higher in it that were not known
at some time before; it goes on mirroring the other when types are registered in both.
-/
namespace Flowscript

namespace Gap

variable {gap : Gap}

theorem handle_ne_of_inside {h k : Nat} (hle : gap.firstType ≤ k) (hlt : k < gap.firstType + gap.types) :
    gap.moves.handle h ≠ k := by
  dsimp only [moves]
  split <;> omega

theorem map_handle_eq_some_iff {h : Nat} {x : Option Handle} :
    x.map gap.moves.handle = some (gap.moves.handle h) ↔ x = some h := by
  cases x with
  | none => simp
  | some k => simp [handle_inj]

end Gap

namespace Catalogue

variable {c₀ c c' : Catalogue} {gap : Gap}

theorem info_of_size_le {h : Nat} (hh : c.infos.size ≤ h) : c.info h = default := by
  rw [info, Array.getD_eq_getD_getElem?, Array.getElem?_eq_none hh, Option.getD_none]

theorem info_grow (c : Catalogue) (t : TypeInfo) (k : Nat) :
    (c.grow t).info k = if k = c.infos.size then t else c.info k := by
  simp only [info, grow, Array.getD_eq_getD_getElem?, Array.getElem?_push]
  split <;> rfl

theorem handle?_grow (c : Catalogue) (t : TypeInfo) (id : TypeId) :
    (c.grow t).handle? id = if id = t.id then some c.infos.size else c.handle? id := by
  rw [handle?, handle?, grow, Std.HashMap.getElem?_insert]
  by_cases hid : id = t.id
  · rw [if_pos hid, if_pos (beq_iff_eq.mpr hid.symm)]
  · rw [if_neg hid, if_neg fun heq => hid (beq_iff_eq.mp heq).symm]

theorem register_eq_grow {t : TypeInfo} (hbases : t.bases = []) (hnew : c.handle? t.id = none) :
    c.register t = (c.infos.size,
      { c.grow (withHeirs ((c.grow t).heirs t.id) t) with
        history := c.history.push (.added t.id t.name) }) := by
  obtain ⟨u, hu⟩ : ∃ u, withHeirs ((c.grow t).heirs t.id) t = u := ⟨_, rfl⟩
  have hid : u.id = t.id := by rw [← hu, withHeirs_eq]
  rw [register_of_fresh hbases hnew, hu, Catalogue.grow, Catalogue.grow, hid]

theorem Filed.grow {t : TypeInfo} (hc : c.Filed) (hid : t.id = .ofName t.name) : (c.grow t).Filed := by
  constructor
  · intro k u hu
    simp only [Catalogue.grow, Array.getElem?_push] at hu
    split at hu
    · rw [← Option.some.inj hu]
      exact hid
    · exact hc.named k u hu
  · intro id k hk
    rw [handle?_grow] at hk
    split at hk
    · next hsame =>
      cases hk
      exact ⟨t, Array.getElem?_push_size, hsame.symm⟩
    · obtain ⟨u, hu, huid⟩ := hc.indexed id k hk
      have hlt := (Array.getElem?_eq_some_iff.mp hu).choose
      refine ⟨u, ?_, huid⟩
      rw [← hu, Array.getElem?_eq_getElem hlt]
      exact Array.getElem?_push_lt hlt

theorem info_modify (c : Catalogue) (h k : Nat) (f : TypeInfo → TypeInfo) :
    (c.modify h f).info k = if h = k ∧ k < c.infos.size then f (c.info k) else c.info k := by
  simp only [info, modify, Array.getD_eq_getD_getElem?, Array.getElem?_modify]
  by_cases hk : h = k
  · by_cases hlt : k < c.infos.size
    · simp [hk, hlt]
    · simp [hk, hlt]
  · simp [hk]

structure Renames (c : Catalogue) (σ : Renumbering) (c' : Catalogue) : Prop where
  filed : c.Filed
  filed' : c'.Filed
  info : ∀ k, c'.info (σ.handle k) = σ.type (c.info k)
  handle : ∀ id, c'.handle? id = (c.handle? id).map σ.handle
  events : c'.events = c.events

namespace Renames

variable {σ : Renumbering} (h : c.Renames σ c')
include h

theorem contains_eq (id : TypeId) : c'.contains id = c.contains id := by
  rw [Catalogue.contains_eq, Catalogue.contains_eq, h.handle, Option.isSome_map]

theorem lookup?_eq (id : TypeId) : c'.lookup? id = (c.lookup? id).map σ.type := by
  rw [lookup?, lookup?, h.handle]
  cases c.handle? id with
  | none => rfl
  | some k => exact congrArg some (h.info k)

theorem handleNamed?_eq (name : String) :
    c'.handleNamed? name = (c.handleNamed? name).map σ.handle := by
  rw [handleNamed?, handleNamed?, h.handle]
  cases c.handle? (.ofName name) with
  | none => rfl
  | some k =>
    rw [Option.map_some, Option.filter_some, Option.filter_some, h.info k, apply_ite (Option.map σ.handle)]
    rfl

theorem lookupName?_eq (name : String) : c'.lookupName? name = (c.lookupName? name).map σ.type := by
  rw [lookupName?, lookupName?, h.handleNamed?_eq]
  cases c.handleNamed? name with
  | none => rfl
  | some k => exact congrArg some (h.info k)

theorem event?_eq (name : String) : c'.event? name = c.event? name := by rw [event?, event?, h.events]

theorem isDerivedFrom_eq (id base : TypeId) : c'.isDerivedFrom id base = c.isDerivedFrom id base := by
  refine isDerivedFrom_congr h.filed h.filed' (fun type => ?_) id base
  unfold basesOf
  rw [h.lookup?_eq]
  cases c.lookup? type <;> rfl

end Renames

def SameAt (c : Catalogue) (σ : Renumbering) (c' : Catalogue) (h : Handle) : Prop :=
  c'.info (σ.handle h) = σ.type (c.info h)

/-- Types that mention only each other are the same under their other numbers. -/
structure Agrees (c : Catalogue) (types : Handle → Prop) (σ : Renumbering) (c' : Catalogue) : Prop where
  within : ∀ h, types h → (c.info h).Within types fun _ => True
  same : ∀ h, types h → c.SameAt σ c' h

structure Mirrors (c₀ : Catalogue) (gap : Gap) (c c' : Catalogue) : Prop where
  filed : c.Filed
  filed' : c'.Filed
  first : gap.firstType = c₀.infos.size
  first_le : c₀.infos.size ≤ c.infos.size
  size : c'.infos.size = c.infos.size + gap.types
  /-- What was known before is unchanged, and refers to nothing that came later. -/
  known : ∀ h < c₀.infos.size, c.info h = c₀.info h ∧ c'.info h = c₀.info h
  closed : ∀ h < c₀.infos.size, gap.moves.type (c₀.info h) = c₀.info h
  /-- Types that came later have no bases. -/
  bare : ∀ h, c₀.infos.size ≤ h → (c.info h).bases = []
  moved : ∀ h, c₀.infos.size ≤ h → c'.info (h + gap.types) = gap.moves.type (c.info h)
  handle : ∀ id, c'.handle? id = (c.handle? id).map gap.moves.handle
  kept : ∀ id h, c₀.handle? id = some h → c.handle? id = some h
  fresh : ∀ id h, c.handle? id = some h → c₀.handle? id = some h ∨ c₀.infos.size ≤ h
  events : c.events = c₀.events ∧ c'.events = c₀.events

namespace Mirrors

theorem info (h : Mirrors c₀ gap c c') (k : Nat) : c'.info (gap.moves.handle k) = gap.moves.type (c.info k) := by
  by_cases hk : k < c₀.infos.size
  · obtain ⟨hinfo, hinfo'⟩ := h.known k hk
    rw [Gap.handle_of_lt (h.first ▸ hk), hinfo, hinfo', h.closed k hk]
  · rw [not_lt] at hk
    rw [Gap.handle_of_le (h.first ▸ hk), h.moved k hk]

theorem renames (h : Mirrors c₀ gap c c') : c.Renames gap.moves c' where
  filed := h.filed
  filed' := h.filed'
  info := h.info
  handle := h.handle
  events := h.events.2.trans h.events.1.symm

section Queries

variable (h : Mirrors c₀ gap c c')
include h

theorem registered_eq : c'.registered = c.registered.map fun p => (p.1, gap.moves.handle p.2) := by
  have hentry : ∀ k : Nat,
      (if c'.handle? (c'.info (gap.moves.handle k)).id = some (gap.moves.handle k) then
        some ((c'.info (gap.moves.handle k)).id, gap.moves.handle k) else none) =
      (if c.handle? (c.info k).id = some k then some ((c.info k).id, k) else none).map
        fun p => (p.1, gap.moves.handle p.2) := by
    intro k
    simp only [h.info k, Renumbering.id_type, h.handle]
    rw [ite_congr (propext Gap.map_handle_eq_some_iff) (fun _ => rfl) fun _ => rfl]
    split <;> rfl
  have hinside : ∀ k : Nat, gap.firstType ≤ k → k < gap.firstType + gap.types →
      c'.handle? (c'.info k).id ≠ some k := by
    intro k hle hlt hk
    rw [h.handle] at hk
    obtain ⟨j, -, hj⟩ := Option.map_eq_some_iff.mp hk
    exact Gap.handle_ne_of_inside hle hlt hj
  obtain ⟨m, hm⟩ := Nat.exists_eq_add_of_le (h.first ▸ h.first_le)
  have hsize := h.size
  rw [hm, show gap.firstType + m + gap.types = gap.firstType + gap.types + m by omega] at hsize
  unfold registered
  dsimp only
  rw [hsize, hm, List.range_add, List.range_add, List.range_add]
  simp only [List.filterMap_append, List.map_append, List.filterMap_map, List.map_filterMap]
  have hgap : (List.range gap.types).filterMap
      ((fun k => if c'.handle? (c'.info k).id = some k then some ((c'.info k).id, k) else none) ∘
        fun k => gap.firstType + k) = [] := by
    refine List.filterMap_eq_nil_iff.mpr fun k hk => ?_
    have hlt := List.mem_range.mp hk
    exact if_neg (hinside (gap.firstType + k) (by omega) (by omega))
  rw [hgap, List.append_nil]
  congr 1
  · refine List.filterMap_congr fun k hk => ?_
    have hk := Gap.handle_of_lt (List.mem_range.mp hk)
    have hentry := hentry k
    rwa [hk] at hentry
  · refine List.filterMap_congr fun k _ => ?_
    have hk : gap.moves.handle (gap.firstType + k) = gap.firstType + gap.types + k := by
      rw [Gap.handle_of_le (by omega)]
      omega
    have hentry := hentry (gap.firstType + k)
    rwa [hk] at hentry

theorem heirs_eq (id : TypeId) : c'.heirs id = c.heirs id := by
  rw [heirs, heirs, h.registered_eq, List.filter_map, List.map_map]
  congr 1
  refine List.filter_congr fun p _ => ?_
  show (c'.info (gap.moves.handle p.2)).bases.contains id = _
  rw [h.info]
  rfl

end Queries

section Changes

theorem addFunction (h : Mirrors c₀ gap c c') {k : Nat} (hk : c₀.infos.size ≤ k) (f : Function) :
    Mirrors c₀ gap (c.modify k (·.addFunction f))
      (c'.modify (k + gap.types) (·.addFunction (gap.moves.function f))) := by
  have hsize : (c.modify k (·.addFunction f)).infos.size = c.infos.size := by simp [Catalogue.modify]
  have hsize' : (c'.modify (k + gap.types) (·.addFunction (gap.moves.function f))).infos.size = c'.infos.size := by
    simp [Catalogue.modify]
  constructor
  · exact h.filed.modify k fun _ => ⟨rfl, rfl⟩
  · exact h.filed'.modify _ fun _ => ⟨rfl, rfl⟩
  · exact h.first
  · rw [hsize]
    exact h.first_le
  · rw [hsize, hsize', h.size]
  · intro j hj
    obtain ⟨hinfo, hinfo'⟩ := h.known j hj
    rw [info_modify, info_modify, if_neg (by omega), if_neg (by omega)]
    exact ⟨hinfo, hinfo'⟩
  · exact h.closed
  · intro j hj
    rw [info_modify]
    split
    · exact h.bare j hj
    · exact h.bare j hj
  · intro j hj
    have hin : (k + gap.types = j + gap.types ∧ j + gap.types < c'.infos.size) ↔
        (k = j ∧ j < c.infos.size) := by
      rw [h.size]
      omega
    rw [info_modify, info_modify, ite_congr (propext hin) (fun _ => rfl) fun _ => rfl, h.moved j hj]
    split
    · exact Renumbering.addFunction_type (c.info j) f
    · rfl
  · exact h.handle
  · exact h.kept
  · exact h.fresh
  · exact h.events

/-- A type without bases comes to both catalogues, and takes the next handle in each. -/
theorem grow (h : Mirrors c₀ gap c c') {t : TypeInfo} (hbases : t.bases = [])
    (hid : t.id = .ofName t.name) (hnew : c.handle? t.id = none) :
    Mirrors c₀ gap (c.grow t) (c'.grow (gap.moves.type t)) := by
  have hsize : (c.grow t).infos.size = c.infos.size + 1 := by simp [Catalogue.grow]
  have hsize' : (c'.grow (gap.moves.type t)).infos.size = c'.infos.size + 1 := by simp [Catalogue.grow]
  have hfirst := h.first
  have hle := h.first_le
  have hgap := h.size
  constructor
  · exact h.filed.grow hid
  · exact h.filed'.grow hid
  · exact h.first
  · omega
  · omega
  · intro k hk
    obtain ⟨hinfo, hinfo'⟩ := h.known k hk
    rw [info_grow, info_grow, if_neg (by omega), if_neg (by omega)]
    exact ⟨hinfo, hinfo'⟩
  · exact h.closed
  · intro k hk
    rw [info_grow]
    split
    · exact hbases
    · exact h.bare k hk
  · intro k hk
    have hlast : k + gap.types = c'.infos.size ↔ k = c.infos.size := by omega
    rw [info_grow, info_grow, ite_congr (propext hlast) (fun _ => rfl) fun _ => rfl, h.moved k hk]
    split <;> rfl
  · intro id
    rw [handle?_grow, handle?_grow, h.handle, Renumbering.id_type]
    split
    · rw [Option.map_some, Gap.handle_of_le (by omega), h.size]
    · rfl
  · intro id k hk
    have hold := h.kept id k hk
    rw [handle?_grow, if_neg, hold]
    rintro rfl
    rw [hnew] at hold
    cases hold
  · intro id k hk
    rw [handle?_grow] at hk
    split at hk
    · cases hk
      exact .inr hle
    · exact h.fresh id k hk
  · exact h.events

theorem history (h : Mirrors c₀ gap c c') (u u' : Array TypeChange) :
    Mirrors c₀ gap { c with history := u } { c' with history := u' } := by
  constructor
  · exact ⟨h.filed.named, h.filed.indexed⟩
  · exact ⟨h.filed'.named, h.filed'.indexed⟩
  · exact h.first
  · exact h.first_le
  · exact h.size
  · exact h.known
  · exact h.closed
  · exact h.bare
  · exact h.moved
  · exact h.handle
  · exact h.kept
  · exact h.fresh
  · exact h.events

theorem register (h : Mirrors c₀ gap c c') {t : TypeInfo} (hbases : t.bases = [])
    (hid : t.id = .ofName t.name) :
    (c'.register (gap.moves.type t)).1 = gap.moves.handle (c.register t).1 ∧
      Mirrors c₀ gap (c.register t).2 (c'.register (gap.moves.type t)).2 := by
  cases hh : c.handle? t.id with
  | some k =>
    have hh' : c'.handle? (gap.moves.type t).id = some (gap.moves.handle k) := by
      rw [Renumbering.id_type, h.handle, hh, Option.map_some]
    rw [register_of_taken hh, register_of_taken hh']
    exact ⟨rfl, h⟩
  | none =>
    have hh' : c'.handle? (gap.moves.type t).id = none := by rw [Renumbering.id_type, h.handle, hh, Option.map_none]
    have hheirs := (h.grow hbases hid hh).heirs_eq t.id
    obtain ⟨u, hu⟩ : ∃ u, withHeirs ((c.grow t).heirs t.id) t = u := ⟨_, rfl⟩
    have hu' : withHeirs ((c'.grow (gap.moves.type t)).heirs (gap.moves.type t).id) (gap.moves.type t) =
      gap.moves.type u := by
      rw [Renumbering.id_type, hheirs, Renumbering.withHeirs_type, hu]
    obtain ⟨hsame, hname, hnone⟩ : u.id = t.id ∧ u.name = t.name ∧ u.bases = t.bases :=
      hu ▸ face_withHeirs _ t
    rw [hbases] at hnone
    have hgrow := h.grow (t := u) hnone (by rw [hsame, hname, hid]) (by rw [hsame, hh])
    rw [register_eq_grow hbases hh, register_eq_grow (t := gap.moves.type t) hbases hh', hu, hu']
    refine ⟨?_, hgrow.history _ _⟩
    rw [Gap.handle_of_le (h.first ▸ h.first_le), h.size]

end Changes

end Mirrors

end Catalogue

end Flowscript
