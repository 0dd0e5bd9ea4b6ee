import Mathlib.Data.List.Chain
import Flowscript.Proofs.Types.RegistryEvolution

/-! # Bases and heirs

A registered type names its bases and knows its heirs. A type that is registered becomes an heir of its bases
and learns of the heirs that came before it; one that is removed is forgotten by its bases. So bases and heirs
agree whatever happens, and a base may come before its heirs, after them or never.

A type derives from another one if the walk over bases meets that. Bases may be named in circles, may be the
type itself and may be missing, and still the walk ends: it expands each type once. It meets just the type
itself and what the last type of a chain names as its base, where all types of the chain are registered and each
names the next one.
-/
namespace Flowscript.Catalogue

variable {c : Catalogue} {t : TypeInfo} {a b id : TypeId} {h k : Handle}

section Derived

theorem mem_addDerived_iff : b ∈ (addDerived a t).derived ↔ b ∈ t.derived ∨ b = a := by
  unfold addDerived
  split
  · next hmem =>
    refine ⟨.inl, fun hb => hb.elim (fun hb => hb) fun hb => ?_⟩
    rw [hb]
    exact List.contains_iff_mem.mp hmem
  · exact List.mem_append.trans (or_congr_right List.mem_singleton)

theorem nodup_addDerived_iff : (addDerived a t).derived.Nodup ↔ t.derived.Nodup := by
  unfold addDerived
  split
  · rfl
  · next hmem =>
    refine List.nodup_append'.trans (and_iff_left ⟨List.nodup_singleton a, ?_⟩)
    exact List.disjoint_singleton.mpr fun ha => hmem (List.contains_iff_mem.mpr ha)

theorem addDerived_addDerived (a : TypeId) (t : TypeInfo) : addDerived a (addDerived a t) = addDerived a t := by
  have hmem : (addDerived a t).derived.contains a = true :=
    List.contains_iff_mem.mpr (mem_addDerived_iff.mpr (.inr rfl))
  rw [addDerived, if_pos hmem]

theorem bases_addDerived (a : TypeId) (t : TypeInfo) : (addDerived a t).bases = t.bases := by
  unfold addDerived
  split <;> rfl

theorem removeDerived_removeDerived (a : TypeId) (t : TypeInfo) :
    removeDerived a (removeDerived a t) = removeDerived a t := by
  simp [removeDerived]

theorem mem_removeDerived_iff : b ∈ (removeDerived a t).derived ↔ b ∈ t.derived ∧ b ≠ a := by
  rw [removeDerived, List.mem_filter, bne_iff_ne]

theorem mem_withHeirs_iff {ids : List TypeId} : b ∈ (withHeirs ids t).derived ↔ b ∈ t.derived ∨ b ∈ ids := by
  induction ids generalizing t with
  | nil => simp [withHeirs]
  | cons id ids ih =>
    rw [show withHeirs (id :: ids) t = withHeirs ids (addDerived id t) from rfl, ih, mem_addDerived_iff,
      List.mem_cons, or_assoc]

theorem nodup_withHeirs_iff {ids : List TypeId} : (withHeirs ids t).derived.Nodup ↔ t.derived.Nodup := by
  induction ids generalizing t with
  | nil => rfl
  | cons id ids ih => exact ih.trans nodup_addDerived_iff

end Derived

section Info

theorem info_modifyId (hk : k < c.infos.size) (f : TypeInfo → TypeInfo) :
    (c.modifyId id f).info k = if c.handle? id = some k then f (c.info k) else c.info k := by
  unfold modifyId
  cases hh : c.handle? id with
  | none => rfl
  | some h =>
    rw [info_modify]
    exact if_congr (by rw [Option.some.injEq]; exact and_iff_left hk) rfl rfl

/-- If doing something twice is doing it once, each of some types is changed once. -/
theorem info_foldl_modifyId {f : TypeInfo → TypeInfo} (hf : ∀ t, f (f t) = f t) (ids : List TypeId)
    (hk : k < c.infos.size) : (ids.foldl (fun c id => c.modifyId id f) c).info k =
      if some k ∈ ids.map c.handle? then f (c.info k) else c.info k := by
  induction ids generalizing c with
  | nil => rfl
  | cons id ids ih =>
    obtain ⟨hindex, hsize⟩ := index_foldl_modifyId [id] f c
    have hhandle : (c.modifyId id f).handle? = c.handle? := by
      funext id'
      exact congrArg (·[id']?) hindex
    rw [List.foldl_cons, ih (by rw [show (c.modifyId id f).infos.size = _ from hsize]; exact hk), hhandle,
      info_modifyId hk, List.map_cons]
    by_cases hid : c.handle? id = some k
    · rw [if_pos hid, hf, ite_self, if_pos (List.mem_cons.mpr (.inl hid.symm))]
    · rw [if_neg hid]
      exact if_congr (by rw [List.mem_cons, or_iff_right (Ne.symm hid)]) rfl rfl

theorem info_foldl_addDerived (ids : List TypeId) (hk : k < c.infos.size) :
    (ids.foldl (fun c heir => c.modify h (addDerived heir)) c).info k =
      if h = k then withHeirs ids (c.info k) else c.info k := by
  induction ids generalizing c with
  | nil => exact (ite_self _).symm
  | cons id ids ih =>
    have hsize : (c.modify h (addDerived id)).infos.size = c.infos.size := Array.size_modify
    rw [List.foldl_cons, ih (by rwa [hsize]), info_modify]
    by_cases hh : h = k
    · rw [if_pos hh, if_pos hh, if_pos ⟨hh, hk⟩]
      rfl
    · rw [if_neg hh, if_neg hh, if_neg fun hboth => hh hboth.1]

end Info

theorem mem_basesOf_iff : a ∈ c.basesOf b ↔ ∃ k, c.handle? b = some k ∧ a ∈ (c.info k).bases := by
  unfold basesOf lookup?
  cases c.handle? b with
  | none => simp
  | some k => simp

theorem Filed.handle_inj (hc : c.Filed) (ha : c.handle? a = some h) (hb : c.handle? b = some h) : a = b :=
  (hc.info_id ha).symm.trans (hc.info_id hb)

/-- A registered type is among those that some identities lead to if its own is one of these. -/
theorem Filed.mem_map_handle?_iff (hc : c.Filed) (ha : c.handle? a = some h) {ids : List TypeId} :
    some h ∈ ids.map c.handle? ↔ a ∈ ids := by
  rw [List.mem_map]
  constructor
  · rintro ⟨b, hb, hbh⟩
    rwa [hc.handle_inj ha hbh]
  · exact fun hmem => ⟨a, hmem, ha⟩

theorem mem_heirs_iff (hc : c.Filed) : b ∈ c.heirs a ↔ a ∈ c.basesOf b := by
  rw [heirs, List.mem_map, mem_basesOf_iff]
  constructor
  · rintro ⟨⟨_, k⟩, hmem, rfl⟩
    obtain ⟨hregistered, hbases⟩ := List.mem_filter.mp hmem
    exact ⟨k, (mem_registered_iff hc).mp hregistered, List.contains_iff_mem.mp hbases⟩
  · rintro ⟨k, hk, hbases⟩
    exact ⟨(b, k), List.mem_filter.mpr ⟨(mem_registered_iff hc).mpr hk, List.contains_iff_mem.mpr hbases⟩, rfl⟩

/-- Registered types agree about who is whose base: a type knows just those that have it among their bases,
each once, and all of them are registered. -/
structure Linked (c : Catalogue) : Prop where
  links : ∀ a b h k, c.handle? a = some h → c.handle? b = some k →
    (b ∈ (c.info h).derived ↔ a ∈ (c.info k).bases)
  nodup : ∀ a h, c.handle? a = some h → (c.info h).derived.Nodup
  registered : ∀ a h, c.handle? a = some h → ∀ b ∈ (c.info h).derived, ∃ k, c.handle? b = some k

theorem linked_iff : c.Linked ↔ ∀ a h, c.handle? a = some h →
    (c.info h).derived.Nodup ∧ ∀ b, b ∈ (c.info h).derived ↔ a ∈ c.basesOf b := by
  constructor
  · refine fun hlinked a h ha => ⟨hlinked.nodup a h ha, fun b => ⟨fun hb => ?_, fun hb => ?_⟩⟩
    · obtain ⟨k, hk⟩ := hlinked.registered a h ha b hb
      exact mem_basesOf_iff.mpr ⟨k, hk, (hlinked.links a b h k ha hk).mp hb⟩
    · obtain ⟨k, hk, hbases⟩ := mem_basesOf_iff.mp hb
      exact (hlinked.links a b h k ha hk).mpr hbases
  · intro hall
    refine ⟨fun a b h k ha hb => ((hall a h ha).2 b).trans ?_, fun a h ha => (hall a h ha).1, fun a h ha b hb => ?_⟩
    · rw [mem_basesOf_iff, hb]
      constructor
      · rintro ⟨_, hk, hbases⟩
        rwa [Option.some.inj hk]
      · exact fun hbases => ⟨k, rfl, hbases⟩
    · obtain ⟨k, hk, -⟩ := mem_basesOf_iff.mp (((hall a h ha).2 b).mp hb)
      exact ⟨k, hk⟩

/-- A type that is registered becomes an heir of its bases. -/
def linkUp (c : Catalogue) (t : TypeInfo) : Catalogue :=
  t.bases.foldl (fun c base => c.modifyId base (addDerived t.id)) (c.grow t)

theorem handle?_linkUp (c : Catalogue) (t : TypeInfo) : (c.linkUp t).handle? = (c.grow t).handle? := by
  funext id
  exact congrArg (·[id]?) (index_foldl_modifyId _ _ _).1

theorem size_linkUp (c : Catalogue) (t : TypeInfo) : (c.linkUp t).infos.size = c.infos.size + 1 := by
  rw [linkUp, (index_foldl_modifyId _ _ _).2, grow, Array.size_push]

theorem Filed.linkUp (hc : c.Filed) (hid : t.id = .ofName t.name) : (c.linkUp t).Filed :=
  List.foldlRecOn t.bases _ (hc.grow hid) fun d hd base _ => by
    unfold Catalogue.modifyId
    split
    · exact hd.modify _ (Plain.addDerived_face t.id)
    · exact hd

theorem info_linkUp (hk : k < c.infos.size + 1) : (c.linkUp t).info k =
    if some k ∈ t.bases.map (c.grow t).handle? then addDerived t.id ((c.grow t).info k)
    else (c.grow t).info k :=
  info_foldl_modifyId (addDerived_addDerived t.id) t.bases (by rwa [grow, Array.size_push])

theorem basesOf_congr {c' : Catalogue} (hhandle : c'.handle? b = c.handle? b)
    (hbases : ∀ k, c.handle? b = some k → (c'.info k).bases = (c.info k).bases) :
    c'.basesOf b = c.basesOf b := by
  rw [basesOf, basesOf, lookup?, lookup?, hhandle]
  cases hk : c.handle? b with
  | none => rfl
  | some k => exact congrArg List.reverse (hbases k hk)

theorem basesOf_grow (hc : c.Filed) (t : TypeInfo) (b : TypeId) :
    (c.grow t).basesOf b = if b = t.id then t.bases.reverse else c.basesOf b := by
  by_cases hb : b = t.id
  · rw [if_pos hb, basesOf, lookup?, handle?_grow, if_pos hb, Option.map_some, info_grow, if_pos rfl]
  · rw [if_neg hb]
    refine basesOf_congr (by rw [handle?_grow, if_neg hb]) fun k hk => ?_
    rw [info_grow, if_neg (Nat.ne_of_lt (hc.lt_size hk))]

theorem basesOf_linkUp (hc : c.Filed) (hid : t.id = .ofName t.name) (b : TypeId) :
    (c.linkUp t).basesOf b = (c.grow t).basesOf b := by
  refine basesOf_congr (by rw [handle?_linkUp]) fun k hk => ?_
  have hlt := (hc.grow hid).lt_size hk
  rw [grow, Array.size_push] at hlt
  rw [info_linkUp hlt]
  split
  · exact bases_addDerived _ _
  · rfl

section Register

variable (hh : c.handle? t.id = none)
include hh

theorem info_register (hk : k < c.infos.size + 1) : (c.register t).2.info k =
    if c.infos.size = k then withHeirs ((c.linkUp t).heirs t.id) ((c.linkUp t).info k)
    else (c.linkUp t).info k := by
  rw [register, hh]
  exact info_foldl_addDerived (c := c.linkUp t) _ (by rwa [size_linkUp])

theorem handle?_register_new : (c.register t).2.handle? = (c.linkUp t).handle? := by
  funext id
  rw [handle?_linkUp, handle?_register_any, handle?_grow]
  by_cases hid : id = t.id
  · rw [if_pos hid, if_pos hid, hid, hh, Option.none_or]
  · rw [if_neg hid, if_neg hid, Option.or_none]

theorem basesOf_register (hc : c.Filed) (hid : t.id = .ofName t.name) (b : TypeId) :
    (c.register t).2.basesOf b = (c.linkUp t).basesOf b := by
  refine basesOf_congr (by rw [handle?_register_new hh]) fun k hk => ?_
  have hlt := (hc.linkUp hid).lt_size hk
  rw [size_linkUp] at hlt
  rw [info_register hh hlt]
  split
  · rw [withHeirs_eq]
  · rfl

theorem mem_basesOf_register_iff (hc : c.Filed) (hid : t.id = .ofName t.name) :
    a ∈ (c.register t).2.basesOf b ↔ a ∈ c.basesOf b ∨ b = t.id ∧ a ∈ t.bases := by
  rw [basesOf_register hh hc hid, basesOf_linkUp hc hid, basesOf_grow hc]
  by_cases hb : b = t.id
  · have hnone : a ∉ c.basesOf b := by simp [mem_basesOf_iff, hb, hh]
    rw [if_pos hb, List.mem_reverse, or_iff_right hnone, and_iff_right hb]
  · rw [if_neg hb, or_iff_left fun hboth => hb hboth.1]

theorem derived_register_new (hc : c.Filed) (hid : t.id = .ofName t.name) :
    (((c.register t).2.info c.infos.size).derived.Nodup ↔ t.derived.Nodup) ∧
      ∀ b, b ∈ ((c.register t).2.info c.infos.size).derived ↔
        b ∈ t.derived ∨ t.id ∈ (c.register t).2.basesOf b := by
  have hlast : (c.grow t).info c.infos.size = t := by rw [info_grow, if_pos rfl]
  rw [info_register hh (Nat.lt_succ_self _), if_pos rfl, info_linkUp (Nat.lt_succ_self _), hlast]
  -- It may be a base of its own, but then it is among its heirs as well.
  have hheirs : ∀ b, b ∈ (c.linkUp t).heirs t.id ↔ t.id ∈ (c.register t).2.basesOf b := fun b => by
    rw [mem_heirs_iff (hc.linkUp hid), basesOf_register hh hc hid]
  have hself : some c.infos.size ∈ t.bases.map (c.grow t).handle? → t.id ∈ (c.linkUp t).heirs t.id := by
    intro hmem
    have hhandle : (c.grow t).handle? t.id = some c.infos.size := by rw [handle?_grow, if_pos rfl]
    rw [(hc.grow hid).mem_map_handle?_iff hhandle] at hmem
    rw [mem_heirs_iff (hc.linkUp hid), basesOf_linkUp hc hid, basesOf_grow hc, if_pos rfl]
    exact List.mem_reverse.mpr hmem
  refine ⟨nodup_withHeirs_iff.trans ?_, fun b => ?_⟩
  · split
    · exact nodup_addDerived_iff
    · rfl
  · rw [mem_withHeirs_iff, ← hheirs]
    split
    · next hmem =>
      rw [mem_addDerived_iff, or_assoc]
      exact or_congr_right (or_iff_right_of_imp fun hb => hb ▸ hself hmem)
    · rfl

theorem derived_register_old (hc : c.Filed) (hid : t.id = .ofName t.name) (ha : c.handle? a = some h) :
    (c.register t).2.info h = if a ∈ t.bases then addDerived t.id (c.info h) else c.info h := by
  have hlt := hc.lt_size ha
  have hne : a ≠ t.id := fun hat => by rw [hat, hh] at ha; cases ha
  have hgrown : (c.grow t).handle? a = some h := by rw [handle?_grow, if_neg hne, ha]
  rw [info_register hh (Nat.lt_succ_of_lt hlt), if_neg (Nat.ne_of_gt hlt), info_linkUp (Nat.lt_succ_of_lt hlt),
    info_grow, if_neg (Nat.ne_of_lt hlt)]
  exact if_congr ((hc.grow hid).mem_map_handle?_iff hgrown) rfl rfl

end Register

/-- What a type brings along is right: each type it knows as an heir names it as a base. -/
structure Informed (c : Catalogue) (t : TypeInfo) : Prop where
  nodup : t.derived.Nodup
  names : ∀ b ∈ t.derived, t.id ∈ c.basesOf b ∨ b = t.id ∧ t.id ∈ t.bases

theorem Informed.of_asBuilt (c : Catalogue) (ht : t.AsBuilt) : c.Informed t := by
  refine ⟨?_, fun b hb => ?_⟩
  · rw [ht.derived]
    exact List.nodup_nil
  · rw [ht.derived] at hb
    exact (List.not_mem_nil hb).elim

/-- Registering a type keeps bases and heirs in agreement just if what it brings along is right. -/
theorem linked_register_iff (hc : c.Filed) (hlinked : c.Linked) (hid : t.id = .ofName t.name)
    (hh : c.handle? t.id = none) : (c.register t).2.Linked ↔ c.Informed t := by
  have hbases {a b : TypeId} := mem_basesOf_register_iff (a := a) (b := b) hh hc hid
  obtain ⟨hnewNodup, hnew⟩ := derived_register_new hh hc hid
  have hhandle : ∀ a, (c.register t).2.handle? a = if a = t.id then some c.infos.size else c.handle? a := fun a => by
    rw [handle?_register_new hh, handle?_linkUp, handle?_grow]
  rw [linked_iff] at hlinked ⊢
  constructor
  · intro hall
    obtain ⟨hnodup, hmem⟩ := hall t.id c.infos.size (by rw [hhandle, if_pos rfl])
    refine ⟨hnewNodup.mp hnodup, fun b hb => hbases.mp ((hmem b).mp ((hnew b).mpr (.inl hb)))⟩
  · intro hinformed a h ha
    rw [hhandle] at ha
    by_cases hat : a = t.id
    · subst hat
      rw [if_pos rfl, Option.some.injEq] at ha
      subst ha
      refine ⟨hnewNodup.mpr hinformed.nodup, fun b => (hnew b).trans (or_iff_right_of_imp fun hb => ?_)⟩
      exact hbases.mpr (hinformed.names b hb)
    · rw [if_neg hat] at ha
      obtain ⟨hnodup, hmem⟩ := hlinked a h ha
      rw [derived_register_old hh hc hid ha]
      by_cases hbase : a ∈ t.bases
      · rw [if_pos hbase]
        refine ⟨nodup_addDerived_iff.mpr hnodup, fun b => ?_⟩
        rw [mem_addDerived_iff, hmem, hbases, and_iff_left hbase]
      · rw [if_neg hbase]
        refine ⟨hnodup, fun b => ?_⟩
        rw [hmem, hbases, or_iff_left fun hboth => hbase hboth.2]

theorem Linked.register (hc : c.Filed) (hlinked : c.Linked) (ht : t.AsBuilt) : (c.register t).2.Linked := by
  cases hh : c.handle? t.id with
  | some k => rwa [register_of_taken hh]
  | none => exact (linked_register_iff hc hlinked ht.named hh).mpr (.of_asBuilt c ht)

def strike (c : Catalogue) (id : TypeId) : Catalogue := { c with index := c.index.erase id }

theorem handle?_strike (c : Catalogue) (id b : TypeId) :
    (c.strike id).handle? b = if b = id then none else c.handle? b := by
  rw [handle?, strike, Std.HashMap.getElem?_erase]
  by_cases hb : b = id
  · rw [if_pos hb, if_pos (beq_iff_eq.mpr hb.symm)]
  · rw [if_neg hb, if_neg fun heq => hb (beq_iff_eq.mp heq).symm]
    rfl

theorem Filed.strike (hc : c.Filed) (id : TypeId) : (c.strike id).Filed := by
  refine ⟨hc.named, fun b k hk => hc.indexed b k ?_⟩
  rw [handle?_strike, Option.ite_none_left_eq_some] at hk
  exact hk.2

theorem info_remove {g : Handle} (hc : c.Filed) (hg : c.handle? id = some g) (ha : c.handle? a = some h)
    (hne : a ≠ id) : (c.remove id).2.info h =
      if a ∈ (c.info g).bases then removeDerived id (c.info h) else c.info h := by
  have hother : g ≠ h := fun heq => hne (hc.handle_inj ha (heq ▸ hg))
  have hstruck : (c.strike id).handle? a = some h := by rw [handle?_strike, if_neg hne, ha]
  have hforgotten : (c.remove id).2.info h =
      ((c.info g).bases.foldl (fun c base => c.modifyId base (removeDerived id)) (c.strike id)).info h := by
    rw [remove, hg]
    exact (info_modify _ _ _ _).trans (if_neg fun hboth => hother hboth.1)
  rw [hforgotten, info_foldl_modifyId (c := c.strike id) (removeDerived_removeDerived id) _ (hc.lt_size ha)]
  exact if_congr ((hc.strike id).mem_map_handle?_iff hstruck) rfl rfl

/-- Removing a type keeps bases and heirs in agreement: its bases forget it. -/
theorem Linked.remove (hc : c.Filed) (hlinked : c.Linked) (id : TypeId) : (c.remove id).2.Linked := by
  cases hg : c.handle? id with
  | none =>
    rw [Catalogue.remove, hg]
    exact hlinked
  | some g =>
    rw [linked_iff] at hlinked ⊢
    intro a h ha
    rw [handle?_remove, Option.ite_none_left_eq_some] at ha
    obtain ⟨hne, ha⟩ := ha
    obtain ⟨hnodup, hmem⟩ := hlinked a h ha
    have hbases : ∀ b, a ∈ (c.remove id).2.basesOf b ↔ b ≠ id ∧ a ∈ c.basesOf b := by
      intro b
      by_cases hb : b = id
      · simp [mem_basesOf_iff, handle?_remove, hb]
      · rw [and_iff_right hb, iff_eq_eq]
        refine congrArg (a ∈ ·) (basesOf_congr (by rw [handle?_remove, if_neg hb]) fun k hk => ?_)
        rw [info_remove hc hg hk hb]
        split <;> rfl
    have hgone : a ∈ c.basesOf id ↔ a ∈ (c.info g).bases := by
      rw [mem_basesOf_iff]
      constructor
      · rintro ⟨k, hk, hbase⟩
        rwa [Option.some.inj (hg.symm.trans hk)]
      · exact fun hbase => ⟨g, hg, hbase⟩
    rw [info_remove hc hg ha hne]
    by_cases hbase : a ∈ (c.info g).bases
    · rw [if_pos hbase]
      refine ⟨hnodup.filter _, fun b => ?_⟩
      rw [mem_removeDerived_iff, hmem, hbases, and_comm]
    · rw [if_neg hbase]
      refine ⟨hnodup, fun b => ?_⟩
      rw [hmem, hbases, iff_and_self]
      rintro hb rfl
      exact hbase (hgone.mp hb)

theorem Linked.equip (hlinked : c.Linked) (k : Handle) (f : Function) :
    (c.modify k (·.addFunction f)).Linked := by
  have hinfo : ∀ j, ((c.modify k (·.addFunction f)).info j).derived = (c.info j).derived ∧
      ((c.modify k (·.addFunction f)).info j).bases = (c.info j).bases := fun j => by
    rw [info_modify]
    split <;> exact ⟨rfl, rfl⟩
  refine ⟨fun a b h k ha hb => ?_, fun a h ha => ?_, fun a h ha => ?_⟩
  · rw [(hinfo h).1, (hinfo k).2]
    exact hlinked.links a b h k ha hb
  · rw [(hinfo h).1]
    exact hlinked.nodup a h ha
  · rw [(hinfo h).1]
    exact hlinked.registered a h ha

theorem Linked.move {c' : Catalogue} (h : c.Filed ∧ c.Linked) (hmove : c.Moves TypeInfo.AsBuilt c') :
    c'.Filed ∧ c'.Linked := by
  obtain ⟨hc, hlinked⟩ := h
  cases hmove with
  | register ht => exact ⟨hc.register_any ht.named, hlinked.register hc ht⟩
  | remove id => exact ⟨hc.remove id, hlinked.remove hc id⟩
  | equip k f => exact ⟨hc.modify k fun _ => ⟨rfl, rfl⟩, hlinked.equip k f⟩

theorem linked_empty : ({} : Catalogue).Linked := by
  have hnone : ∀ a, ({} : Catalogue).handle? a = none := fun a => by simp [handle?]
  refine linked_iff.mpr fun a h ha => ?_
  rw [hnone] at ha
  cases ha

end Flowscript.Catalogue

namespace Flowscript

open Catalogue

theorem Catalogue.Evolves.filed {c c' : Catalogue} (h : c.Evolves TypeInfo.Named c') (hc : c.Filed) : c'.Filed := by
  refine h.induct (fun d d' hd hmove => ?_) hc
  cases hmove with
  | register ht => exact hd.register_any ht
  | remove id => exact hd.remove id
  | equip k f => exact hd.modify k fun _ => ⟨rfl, rfl⟩

/-- If it registers a type that is not registered yet, that type brings along what is right. -/
def Happening.Informs (c : Catalogue) : Happening → Prop
  | .host (.register t _) => c.handle? t.id = none → c.Informed t
  | _ => True

theorem Happening.Registers.informs {h : Happening} (hh : h.Registers TypeInfo.AsBuilt) (c : Catalogue) :
    h.Informs c := by
  cases h with
  | host change => cases change with
    | register t named => exact fun _ => .of_asBuilt c hh
    | remove id => exact trivial
    | removeScripted => exact trivial
  | loader d => exact trivial

namespace Shared

variable {s s' : Shared} {hs : List Happening}

/-- What is registered by a loader, and removed by anyone, keeps bases and heirs in agreement. -/
theorem linked_step (hc : s.catalogue.Filed) (hlinked : s.catalogue.Linked) {h : Happening}
    (hstep : s.step h = some s') (hbuilt : h.Registers TypeInfo.AsBuilt) : s'.catalogue.Linked :=
  ((step_evolves (fun _ ht => ht) hbuilt hstep).induct (fun _ _ => Linked.move) ⟨hc, hlinked⟩).2

theorem linked_step_iff (hc : s.catalogue.Filed) (hlinked : s.catalogue.Linked) {h : Happening}
    (hstep : s.step h = some s') : s'.catalogue.Linked ↔ h.Informs s.catalogue := by
  cases h with
  | loader d => exact iff_of_true (linked_step hc hlinked hstep trivial) trivial
  | host change =>
    cases change with
    | remove id => exact iff_of_true (linked_step hc hlinked hstep trivial) trivial
    | removeScripted => exact iff_of_true (linked_step hc hlinked hstep trivial) trivial
    | register t named =>
      cases hstep
      rw [catalogue_register]
      cases hh : s.catalogue.handle? t.id with
      | some k =>
        rw [register_of_taken hh]
        exact iff_of_true hlinked fun hfree => nomatch hh.symm.trans hfree
      | none =>
        rw [linked_register_iff hc hlinked named hh]
        exact ⟨fun hinformed _ => hinformed, fun hinforms => hinforms hh⟩

/-- Bases and heirs agree all along, whatever a host and a loader register and remove, in whatever order and with
whatever bases, just if each type that comes brings along what is right: a type that was removed remembers the
heirs it had then, and keeps them when it is registered again. -/
theorem linked_run_iff (hstart : ({} : Catalogue).Evolves TypeInfo.AsBuilt s.catalogue) :
    (∀ before s', before <+: hs → run before s = some s' → s'.catalogue.Linked) ↔
      ∀ before h s', before ++ [h] <+: hs → run before s = some s' → h.Informs s'.catalogue := by
  obtain ⟨hc, hlinked⟩ := hstart.induct (fun _ _ => Linked.move) ⟨Plain.empty.filed, linked_empty⟩
  have hfiled {before : List Happening} {s' : Shared} (hrun : run before s = some s') : s'.catalogue.Filed :=
    (run_evolves_named hrun).filed hc
  constructor
  · intro hall before h s₁ hbefore hrun
    have hlinked₁ := hall before s₁ ((List.prefix_append before [h]).trans hbefore) hrun
    cases hstep : s₁.step h with
    | some s₂ =>
      refine (linked_step_iff (hfiled hrun) hlinked₁ hstep).mp (hall _ s₂ hbefore ?_)
      rw [run_concat, hrun, Option.bind_some, hstep]
    | none =>
      cases h with
      | host change => cases hstep
      | loader d => exact trivial
  · intro hinforms before
    induction before using List.reverseRecOn with
    | nil =>
      rintro s' - hrun
      cases hrun
      exact hlinked
    | append_singleton before h ih =>
      intro s₂ hbefore hrun
      rw [run_concat] at hrun
      obtain ⟨s₁, hrun, hstep⟩ := Option.bind_eq_some_iff.mp hrun
      have hlinked₁ := ih s₁ ((List.prefix_append before [h]).trans hbefore) hrun
      exact (linked_step_iff (hfiled hrun) hlinked₁ hstep).mpr (hinforms before h s₁ hbefore hrun)

def knot : TypeInfo := { TypeInfo.new "Knot" ⟨4, 4⟩ with bases := [.ofName "Loop", .ofName "Knot"] }

def loop : TypeInfo := { TypeInfo.new "Loop" ⟨4, 4⟩ with bases := [.ofName "Knot"] }

/-- The knot as it is handed back when it is removed while the loop is registered. -/
def worn : TypeInfo := { knot with derived := [.ofName "Knot", .ofName "Loop"] }

/-- A host that knows the primitive types. -/
def fresh : Shared :=
  { loader := { worldType := "World" }, workspace := { context := { catalogue := .withPrimitives } } }

/-- The knot comes before its base, goes and comes again. -/
def comings : List Happening :=
  [.host (.register knot rfl), .host (.register loop rfl), .host (.remove (.ofName "Knot")),
    .host (.register knot rfl)]

def partings : List Happening :=
  [.host (.register knot rfl), .host (.register loop rfl), .host (.remove (.ofName "Knot")),
    .host (.remove (.ofName "Loop"))]

theorem handle?_partings (hs : run partings fresh = some s) {id : TypeId}
    (hid : id = .ofName "Knot" ∨ id = .ofName "Loop") : s.catalogue.handle? id = none := by
  rw [partings, run_host, run_host, run_host, run_host] at hs
  cases hs
  rw [catalogue_remove, handle?_remove, catalogue_remove, handle?_remove]
  rcases hid with rfl | rfl
  · rw [if_pos rfl]
    exact ite_self _
  · exact if_pos rfl

/-- The knot that is handed back knows an heir. When it is registered again that is not registered, and bases and heirs
do not agree. -/
theorem linked_comings_not_worn :
    ({} : Catalogue).Evolves TypeInfo.AsBuilt fresh.catalogue ∧
    (∀ before s', before <+: comings → run before fresh = some s' → s'.catalogue.Linked) ∧
    (∃ s, run (partings.take 2) fresh = some s ∧ (s.catalogue.remove (.ofName "Knot")).1 = some worn) ∧
    ¬ ∀ before s', before <+: partings ++ [.host (.register worn rfl)] → run before fresh = some s' →
        s'.catalogue.Linked := by
  have hknot : knot.AsBuilt := ⟨rfl, rfl⟩
  have hloop : loop.AsBuilt := ⟨rfl, rfl⟩
  have hbuilt : ∀ h ∈ comings, h.Registers TypeInfo.AsBuilt := by
    simp only [comings, List.forall_mem_cons, Happening.Registers]
    exact ⟨hknot, hloop, trivial, hknot, List.forall_mem_nil _⟩
  refine ⟨evolves_withPrimitives, ?_, ?_, fun hall => ?_⟩
  · refine (linked_run_iff (s := fresh) evolves_withPrimitives).mpr fun before h s₁ hbefore _ => ?_
    exact (hbuilt h (hbefore.subset (List.mem_append_right _ (List.mem_singleton_self h)))).informs _
  · exact ⟨_, rfl, by cbv⟩
  · have hinforms := (linked_run_iff (s := fresh) evolves_withPrimitives).mp hall partings _ _ List.prefix_rfl rfl
    have hgone : TypeId.ofName "Loop" ≠ .ofName "Knot" := by decide +kernel
    have hfree := hinforms (handle?_partings rfl (.inl rfl))
    rcases hfree.names (.ofName "Loop") (by simp [worn]) with hbase | ⟨hsame, -⟩
    · rw [mem_basesOf_iff] at hbase
      obtain ⟨k, hk, -⟩ := hbase
      cases hk.symm.trans (handle?_partings rfl (.inr rfl))
    · exact hgone hsame

end Shared

end Flowscript

namespace Flowscript.Catalogue

variable {c : Catalogue} {type base id : TypeId} {seen pending : List TypeId} {found found' : Bool}

/-- A walk over bases that ends, after some types were seen and with others to come: it meets the base, or nothing
comes any more. A type that was seen is passed over, and any other one makes room for its bases. -/
inductive Walks (c : Catalogue) (base : TypeId) : List TypeId → List TypeId → Bool → Prop where
  | missed (seen : List TypeId) : Walks c base seen [] false
  | met (seen pending : List TypeId) : Walks c base seen (base :: pending) true
  | again {seen pending : List TypeId} {id : TypeId} {found : Bool} (hid : id ≠ base) (hseen : id ∈ seen)
      (hrest : Walks c base seen pending found) : Walks c base seen (id :: pending) found
  | expand {seen pending : List TypeId} {id : TypeId} {found : Bool} (hid : id ≠ base) (hnew : id ∉ seen)
      (hrest : Walks c base (id :: seen) (c.basesOf id ++ pending) found) : Walks c base seen (id :: pending) found

theorem Walks.unique (h : c.Walks base seen pending found) (h' : c.Walks base seen pending found') :
    found = found' := by
  induction h with
  | missed =>
    cases h'
    rfl
  | met =>
    cases h' with
    | met => rfl
    | again hid => exact absurd rfl hid
    | expand hid => exact absurd rfl hid
  | again hid hseen _ ih =>
    cases h' with
    | met => exact absurd rfl hid
    | again _ _ hrest => exact ih hrest
    | expand _ hnew => exact absurd hseen hnew
  | expand hid hnew _ ih =>
    cases h' with
    | met => exact absurd rfl hid
    | again _ hseen => exact absurd hseen hnew
    | expand _ _ hrest => exact ih hrest

theorem walks_reaches (hc : c.Filed) {fuel : Nat}
    (hfuel : pending.length + unseen (c.registered.map (·.1)) c.baseCount seen ≤ fuel) :
    c.Walks base seen pending (c.reaches base fuel seen pending) := by
  induction fuel generalizing seen pending with
  | zero =>
    obtain rfl : pending = [] := List.length_eq_zero_iff.mp (by omega)
    exact .missed seen
  | succ fuel ih =>
    cases pending with
    | nil => exact .missed seen
    | cons id pending =>
      rw [List.length_cons] at hfuel
      rw [reaches_eq_search, search, ← reaches_eq_search, ← reaches_eq_search]
      by_cases hid : id = base
      · rw [if_pos hid, hid]
        exact .met seen pending
      · rw [if_neg hid]
        by_cases hseen : id ∈ seen
        · rw [if_pos (List.contains_iff_mem.mpr hseen)]
          exact .again hid hseen (ih (by omega))
        · have hroom := (searchable_basesOf hc).length_expand_le trivial hseen pending
          rw [if_neg fun hcontains => hseen (List.contains_iff_mem.mp hcontains)]
          exact .expand hid hseen (ih (by omega))

theorem walks_iff (hc : c.Filed) : c.Walks base [] [type] found ↔ c.isDerivedFrom type base = found := by
  have hends : c.Walks base [] [type] (c.isDerivedFrom type base) := walks_reaches hc (unseen_lt_walkBound c)
  exact ⟨hends.unique, fun h => h ▸ hends⟩

def ListsBase (c : Catalogue) (type base : TypeId) : Prop := ∃ t, c.lookup? type = some t ∧ base ∈ t.bases

/-- A chain of registered types from a type to one that lists a base. -/
structure Ancestry (c : Catalogue) (type base : TypeId) (chain : List TypeId) : Prop where
  starts : chain.head? = some type
  registered : ∀ id ∈ chain, ∃ t, c.lookup? id = some t
  linked : chain.IsChain c.ListsBase
  ends : ∃ last, chain.getLast? = some last ∧ c.ListsBase last base

theorem Ancestry.cons {chain : List TypeId} (h : c.Ancestry type base chain) (hid : c.ListsBase id type) :
    c.Ancestry id base (id :: chain) := by
  obtain ⟨rest, rfl⟩ : ∃ rest, chain = type :: rest := List.head?_eq_some_iff.mp h.starts
  obtain ⟨last, hlast, hlists⟩ := h.ends
  refine ⟨rfl, List.forall_mem_cons.mpr ⟨?_, h.registered⟩, .cons_cons hid h.linked, last, ?_, hlists⟩
  · obtain ⟨t, ht, -⟩ := hid
    exact ⟨t, ht⟩
  · rw [List.getLast?_cons_cons, hlast]

theorem Ancestry.derives {chain : List TypeId} (h : c.Ancestry type base chain) : c.Derives type base := by
  induction chain generalizing type with
  | nil => cases h.starts
  | cons id rest ih =>
    obtain rfl : id = type := Option.some.inj h.starts
    cases rest with
    | nil =>
      obtain ⟨last, hlast, hlists⟩ := h.ends
      cases hlast
      exact .single hlists
    | cons next rest =>
      obtain ⟨hlists, hlinked⟩ := List.isChain_cons_cons.mp h.linked
      refine .head hlists (ih ⟨rfl, fun i hi => h.registered i (List.mem_cons_of_mem _ hi), hlinked, ?_⟩)
      simpa only [List.getLast?_cons_cons] using h.ends

theorem derives_iff_ancestry : c.Derives type base ↔ type = base ∨ ∃ chain, c.Ancestry type base chain := by
  constructor
  · intro h
    induction h using Relation.ReflTransGen.head_induction_on with
    | refl => exact .inl rfl
    | head hlists _ ih =>
      rcases ih with rfl | ⟨chain, hchain⟩
      · obtain ⟨t, ht, hbase⟩ := hlists
        refine .inr ⟨[_], rfl, List.forall_mem_singleton.mpr ⟨t, ht⟩, .singleton _, _, rfl, t, ht, hbase⟩
      · exact .inr ⟨_, hchain.cons hlists⟩
  · rintro (rfl | ⟨chain, hchain⟩)
    · exact .refl
    · exact hchain.derives

/-- In every registry, however it came about and whatever its types name as their bases, the walk from a type ends
and finds just what a chain of registered types leads to. So a type derives from itself, and from what its bases
derive from. -/
theorem isDerivedFrom_iff_ancestry (hc : ({} : Catalogue).Evolves TypeInfo.Named c) :
    (∀ type base found, c.Walks base [] [type] found ↔ c.isDerivedFrom type base = found) ∧
    (∀ type base, c.isDerivedFrom type base = true ↔ type = base ∨ ∃ chain, c.Ancestry type base chain) ∧
    (∀ type, c.isDerivedFrom type type = true) ∧
    ∀ type base root, c.isDerivedFrom type base = true → c.isDerivedFrom base root = true →
      c.isDerivedFrom type root = true := by
  have hfiled := hc.filed Plain.empty.filed
  refine ⟨fun type base found => walks_iff hfiled, fun type base => ?_, fun type => ?_,
    fun type base root hbase hroot => ?_⟩
  · exact (isDerivedFrom_iff hfiled).trans derives_iff_ancestry
  · exact (isDerivedFrom_iff hfiled).mpr .refl
  · rw [isDerivedFrom_iff hfiled] at hbase hroot ⊢
    exact hbase.trans hroot

/-- A type with a base that is missing, and one that is in a circle. -/
def stray : TypeInfo := { TypeInfo.new "Stray" ⟨4, 4⟩ with bases := [.ofName "Ghost", .ofName "Loop"] }

def tangle : Catalogue := ((((({} : Catalogue).register Shared.knot).2).register stray).2.register Shared.loop).2

theorem exists_walks_tangle : ({} : Catalogue).Evolves TypeInfo.Named tangle ∧
    ∃ found, tangle.Walks (.ofName "Ghost") [] [.ofName "Stray"] found := by
  have hknot : Shared.knot.Named := rfl
  have hstray : stray.Named := rfl
  have hloop : Shared.loop.Named := rfl
  have hevolves : ({} : Catalogue).Evolves TypeInfo.Named tangle :=
    ((Evolves.of_move (.register hknot)).trans (.of_move (.register hstray))).trans (.of_move (.register hloop))
  obtain ⟨hwalks, -⟩ := isDerivedFrom_iff_ancestry hevolves
  exact ⟨hevolves, _, (hwalks _ _ _).mpr rfl⟩

end Flowscript.Catalogue
