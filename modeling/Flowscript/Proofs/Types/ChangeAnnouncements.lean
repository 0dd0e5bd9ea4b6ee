import Flowscript.Proofs.Types.BasesAndHeirs

/-! # Announced changes

Each type that is registered or removed is announced. A subscriber who reads the announcements before too
many are waiting misses none; carried out on the names that were registered when he subscribed, they give the
names that are registered now.
-/
namespace Flowscript

abbrev Names := TypeId → Option String

namespace TypeChange

/-- Carries out a change on names. What is added must not be there, what is removed must be there. -/
def carryOut : TypeChange → Names → Option Names
  | .added id name, names => if names id = none then some (Function.update names id (some name)) else none
  | .removed id name, names => if names id = some name then some (Function.update names id none) else none

def replay : List TypeChange → Names → Option Names
  | [], names => some names
  | e :: es, names => (e.carryOut names).bind (replay es)

theorem replay_append (es es' : List TypeChange) (names : Names) :
    replay (es ++ es') names = (replay es names).bind (replay es') := by
  induction es generalizing names with
  | nil => rfl
  | cons e es ih =>
    rw [List.cons_append, replay, replay, Option.bind_assoc]
    exact congrArg _ (funext fun names => ih names)

end TypeChange

namespace Catalogue

open TypeChange

variable {c c' c'' : Catalogue}

def names (c : Catalogue) : Names := fun id => (c.lookup? id).map TypeInfo.name

/-- From one catalogue to another just the changes were announced that lead from the names of one to those of
the other. -/
def Announces (c c' : Catalogue) : Prop :=
  ∃ es, c'.history.toList = c.history.toList ++ es ∧ replay es c.names = some c'.names

namespace Announces

theorem refl (c : Catalogue) : c.Announces c := ⟨[], (List.append_nil _).symm, rfl⟩

theorem trans (h : c.Announces c') (h' : c'.Announces c'') : c.Announces c'' := by
  obtain ⟨es, hhistory, hreplay⟩ := h
  obtain ⟨es', hhistory', hreplay'⟩ := h'
  refine ⟨es ++ es', by rw [hhistory', hhistory, List.append_assoc], ?_⟩
  rw [replay_append, hreplay, Option.bind_some, hreplay']

theorem of_carryOut {e : TypeChange} (hhistory : c'.history = c.history.push e)
    (hnames : e.carryOut c.names = some c'.names) : c.Announces c' := by
  refine ⟨[e], by rw [hhistory, Array.toList_push], ?_⟩
  rw [replay, hnames]
  rfl

theorem of_names_eq (hhistory : c'.history = c.history) (hnames : c'.names = c.names) : c.Announces c' :=
  ⟨[], by rw [hhistory, List.append_nil], congrArg some hnames.symm⟩

end Announces

section Moves

variable {t : TypeInfo} {id : TypeId}

theorem history_foldl_modifyId (ids : List TypeId) (f : TypeInfo → TypeInfo) (c : Catalogue) :
    (ids.foldl (fun c id => c.modifyId id f) c).history = c.history :=
  List.foldlRecOn (motive := fun d : Catalogue => d.history = c.history) ids _ rfl fun d hd id _ => by
    unfold modifyId
    split <;> exact hd

theorem history_register (hh : c.handle? t.id = none) :
    (c.register t).2.history = c.history.push (.added t.id t.name) := by
  have hheirs := List.foldlRecOn (motive := fun d : Catalogue => d.history = c.history) ((c.linkUp t).heirs t.id)
    (fun (d : Catalogue) heir => d.modify c.infos.size (addDerived heir))
    (history_foldl_modifyId t.bases (addDerived t.id) (c.grow t)) fun d hd heir _ => hd
  rw [register, hh]
  exact congrArg (fun history : Array TypeChange => history.push _) hheirs

theorem name_register {k : Handle} (hh : c.handle? t.id = none) (hk : k < c.infos.size + 1) :
    ((c.register t).2.info k).name = ((c.grow t).info k).name := by
  have hlink : ((c.linkUp t).info k).name = ((c.grow t).info k).name := by
    rw [info_linkUp hk]
    split
    · exact (Plain.addDerived_face _ _).2
    · rfl
  rw [info_register hh hk]
  split
  · rw [withHeirs_eq]
    exact hlink
  · exact hlink

theorem names_register (hc : c.Filed) (hh : c.handle? t.id = none) :
    (c.register t).2.names = Function.update c.names t.id (some t.name) := by
  funext id
  have hhandle : (c.register t).2.handle? id = if id = t.id then some c.infos.size else c.handle? id := by
    rw [handle?_register_new hh, handle?_linkUp, handle?_grow]
  rw [names, lookup?, hhandle]
  by_cases hid : id = t.id
  · rw [if_pos hid, hid, Function.update_self, Option.map_some, Option.map_some,
      name_register hh (Nat.lt_succ_self _), info_grow, if_pos rfl]
  · rw [if_neg hid, Function.update_of_ne hid, names, lookup?]
    cases hk : c.handle? id with
    | none => rfl
    | some k =>
      have hlt := hc.lt_size hk
      rw [Option.map_some, Option.map_some, name_register hh (Nat.lt_succ_of_lt hlt), info_grow,
        if_neg (Nat.ne_of_lt hlt)]
      rfl

theorem history_remove {g : Handle} (hg : c.handle? id = some g) :
    (c.remove id).2.history = c.history.push (.removed id (c.info g).name) := by
  have hbases := history_foldl_modifyId (c.info g).bases (removeDerived id) (c.strike id)
  rw [remove, hg]
  exact congrArg (fun history : Array TypeChange => history.push _) hbases

theorem names_remove (hc : c.Filed) {g : Handle} (hg : c.handle? id = some g) :
    (c.remove id).2.names = Function.update c.names id none := by
  funext a
  rw [names, lookup?, handle?_remove]
  by_cases ha : a = id
  · rw [if_pos ha, ha, Function.update_self]
    rfl
  · rw [if_neg ha, Function.update_of_ne ha, names, lookup?]
    cases hh : c.handle? a with
    | none => rfl
    | some h =>
      rw [Option.map_some, Option.map_some, info_remove hc hg hh ha]
      split <;> rfl

theorem announces_move (hc : c.Filed) (h : c.Moves TypeInfo.Named c') : c.Announces c' := by
  cases h with
  | @register t ht =>
    cases hh : c.handle? t.id with
    | some k =>
      rw [register_of_taken hh]
      exact .refl c
    | none =>
      have hnew : c.names t.id = none := by rw [names, lookup?, hh]; rfl
      refine .of_carryOut (history_register hh) ?_
      rw [carryOut, if_pos hnew, names_register hc hh]
  | remove id =>
    cases hg : c.handle? id with
    | none =>
      rw [remove, hg]
      exact .refl c
    | some g =>
      have hthere : c.names id = some (c.info g).name := by rw [names, lookup?, hg]; rfl
      refine .of_carryOut (history_remove hg) ?_
      rw [carryOut, if_pos hthere, names_remove hc hg]
  | equip k f =>
    refine .of_names_eq rfl (funext fun id => ?_)
    rw [names, names, lookup?, lookup?, Option.map_map, Option.map_map]
    refine Option.map_congr fun j _ => ?_
    rw [Function.comp_apply, Function.comp_apply, info_modify]
    split <;> rfl

theorem size_history_move {P : TypeInfo → Prop} (h : c.Moves P c') : c'.history.size ≤ c.history.size + 1 := by
  cases h with
  | @register t _ =>
    cases hh : c.handle? t.id with
    | some k =>
      rw [register_of_taken hh]
      exact Nat.le_succ _
    | none => rw [history_register hh, Array.size_push]
  | remove id =>
    cases hg : c.handle? id with
    | none =>
      rw [remove, hg]
      exact Nat.le_succ _
    | some g => rw [history_remove hg, Array.size_push]
  | equip k f => exact Nat.le_succ _

theorem Evolves.announces (hc : c.Filed) (h : c.Evolves TypeInfo.Named c') : c'.Filed ∧ c.Announces c' := by
  refine h.induct (I := fun d => d.Filed ∧ c.Announces d) (fun d d' hd hmove => ?_) ⟨hc, .refl c⟩
  refine ⟨?_, hd.2.trans (announces_move hd.1 hmove)⟩
  cases hmove with
  | register ht => exact hd.1.register_any ht
  | remove id => exact hd.1.remove id
  | equip k f => exact hd.1.modify k fun _ => ⟨rfl, rfl⟩

theorem changesSince_of_le {position : Nat} (hfew : c.history.size - position ≤ kept) :
    c.changesSince position = (0, c.history.toList.drop position) := by
  rw [changesSince]
  simp only [Nat.sub_eq_zero_of_le hfew, Nat.add_zero]

end Moves

end Catalogue

namespace Shared

open Catalogue TypeChange

/-- A subscriber follows what happens: he reads the announcements now and then, at the latest when as many wait
as are kept. In the end he has missed some and received others. -/
inductive Follows (s : Shared) : Nat → List TypeChange → Shared → Prop where
  | subscribe : Follows s 0 [] s
  | read {s' s'' : Shared} {missed : Nat} {received : List TypeChange} {hs : List Happening}
    (before : Follows s missed received s') (hrun : run hs s' = some s'')
    (hfew : s''.catalogue.history.size - s'.catalogue.history.size ≤ kept) :
    Follows s (missed + (s''.catalogue.changesSince s'.catalogue.history.size).1)
      (received ++ (s''.catalogue.changesSince s'.catalogue.history.size).2) s''

theorem run_announces {s s' : Shared} {hs : List Happening} (hc : s.catalogue.Filed) (hrun : run hs s = some s') :
    s'.catalogue.Filed ∧ s.catalogue.Announces s'.catalogue :=
  Evolves.announces hc (run_evolves_named hrun)

/-- A subscriber who follows what happens misses nothing, and what he receives, carried out in order on the names
that were registered when he subscribed, gives just the names that are registered. Nothing is added that is
there, and nothing is removed that is not. -/
theorem replay_of_follows {s s' : Shared} {missed : Nat} {received : List TypeChange}
    (hstart : ({} : Catalogue).Evolves TypeInfo.Named s.catalogue) (h : s.Follows missed received s') :
    missed = 0 ∧ replay received s.catalogue.names = some s'.catalogue.names := by
  suffices hall : s'.catalogue.Filed ∧ missed = 0 ∧
      replay received s.catalogue.names = some s'.catalogue.names from hall.2
  induction h with
  | subscribe => exact ⟨(hstart.announces Plain.empty.filed).1, rfl, rfl⟩
  | read before hrun hfew ih =>
    obtain ⟨hfiled, rfl, hreplay⟩ := ih
    obtain ⟨hfiled', es, hhistory, hes⟩ := run_announces hfiled hrun
    rw [changesSince_of_le hfew, hhistory, List.drop_left' Array.length_toList, replay_append, hreplay]
    exact ⟨hfiled', rfl, hes⟩

/-- A subscriber reads once when the knot has come and gone, and once when it is back. -/
theorem replay_comings : ∃ received s, fresh.Follows 0 received s ∧
    replay received fresh.catalogue.names = some s.catalogue.names := by
  have hstart : ({} : Catalogue).Evolves TypeInfo.Named fresh.catalogue :=
    evolves_withPrimitives.mono fun t ht => ht.named
  let both := (fresh.change (.register knot rfl)).change (.register loop rfl)
  let gone := both.change (.remove (.ofName "Knot"))
  let back := gone.change (.register knot rfl)
  have hboth : both.catalogue.history.size ≤ fresh.catalogue.history.size + 1 + 1 :=
    (size_history_move ((fresh.change (.register knot rfl)).moves_register (t := loop)
      (P := TypeInfo.Named) rfl rfl)).trans (Nat.add_le_add_right (size_history_move
        (fresh.moves_register (t := knot) (P := TypeInfo.Named) rfl rfl)) 1)
  have hgone : gone.catalogue.history.size ≤ both.catalogue.history.size + 1 :=
    size_history_move (both.moves_remove (P := TypeInfo.Named) (.ofName "Knot"))
  have hback : back.catalogue.history.size ≤ gone.catalogue.history.size + 1 :=
    size_history_move (gone.moves_register (P := TypeInfo.Named) rfl rfl)
  have hkept : 3 ≤ kept := by decide
  have hgoes : run (comings.take 3) fresh = some gone := rfl
  have hcomes : run (comings.drop 3) gone = some back := rfl
  have hfirst := Follows.read .subscribe hgoes (by omega)
  have hfollows := Follows.read hfirst hcomes (by omega)
  obtain ⟨hmissed, hreplay⟩ := replay_of_follows hstart hfollows
  exact ⟨_, back, hmissed ▸ hfollows, hreplay⟩

end Shared

end Flowscript
