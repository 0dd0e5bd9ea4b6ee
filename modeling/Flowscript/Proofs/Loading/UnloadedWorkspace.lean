import Flowscript.Proofs.Loading.MirroredLoading

/-! # What unloading leaves

Everything that was there before a load stays as it was while scripts are loaded. Unloading removes what
the load declared, so that the same types are registered as before; types that are no longer registered
and bodies that are unloaded are left behind.
-/
namespace Flowscript

namespace Context

variable {k₀ k k' : Context} {gap : Gap}

/-- Everything of some time before is there as it was, and nothing else is registered. -/
structure Restored (k₀ k : Context) : Prop extends k₀.Outgrows k where
  gone : ∀ id h, k.catalogue.handle? id = some h → k₀.catalogue.handle? id = some h

theorem Restored.handle?_eq (h : k₀.Restored k) (id : TypeId) :
    k.catalogue.handle? id = k₀.catalogue.handle? id :=
  Option.ext fun x => ⟨fun hx => h.gone id x hx, fun hx => h.catalogue.handle id x hx⟩

/-- How much came since some time before. -/
def since (k₀ k : Context) : Gap where
  firstType := k₀.catalogue.infos.size
  types := k.catalogue.infos.size - k₀.catalogue.infos.size
  firstBody := k₀.bodies.size
  bodies := k.bodies.size - k₀.bodies.size

theorem Restored.declaring (hfiled : k₀.catalogue.Filed) (hclosed : k₀.Closed) (h : k₀.Restored k)
    (scripts : List Script) : k₀.Declaring scripts (k₀.since k) k₀ k := by
  have hsize := h.catalogue.size_le
  have hbodies := h.bodies_le
  have hnone : ∀ j, k₀.catalogue.infos.size ≤ j → k₀.catalogue.info j = default := fun j hj =>
    Catalogue.info_of_size_le hj
  have hinfo : ∀ j < k₀.catalogue.infos.size, k.catalogue.info j = k₀.catalogue.info j := by
    intro j hj
    have hsome := Array.getElem?_eq_getElem hj
    rw [Catalogue.info_of_getElem? hsome, Catalogue.info_of_getElem? (h.catalogue.info j _ hsome)]
  refine ⟨⟨?_, rfl, le_rfl, ?_, fun n hn => ⟨rfl, h.body n hn⟩, fun n hn => ?_⟩, fun j hj key f hf => ?_,
    fun j hj _ => ?_⟩
  · constructor
    · exact hfiled
    · exact h.catalogue.filed
    · rfl
    · exact le_rfl
    · show _ = _ + (_ - _)
      omega
    · exact fun j hj => ⟨rfl, hinfo j hj⟩
    · exact fun j hj => Renumbering.type_of_within (fun _ hi => Gap.handle_of_lt hi)
        (fun _ hn => Gap.number_of_lt hn) (hclosed j hj)
    · intro j hj
      rw [hnone j hj]
      rfl
    · intro j hj
      rw [hnone j hj, Catalogue.info_of_size_le]
      · rfl
      · show _ ≤ j + (_ - _)
        omega
    · intro id
      rw [h.handle?_eq]
      cases hh : k₀.catalogue.handle? id with
      | none => rfl
      | some j => exact congrArg some (Gap.handle_of_lt (g := k₀.since k) (hfiled.lt_size hh)).symm
    · exact fun _ _ hh => hh
    · exact fun _ _ hh => .inl hh
    · exact ⟨rfl, h.catalogue.events⟩
  · show _ = _ + (_ - _)
    omega
  · rw [Array.getElem?_eq_none hn, Array.getElem?_eq_none]
    · rfl
    · show _ ≤ n + (_ - _)
      omega
  · rw [hnone j hj] at hf
    cases hf
  · rw [hnone j hj]
    exact ⟨fun _ hcodec => (nomatch hcodec), List.forall_mem_nil _⟩

end Context

namespace Loader

variable {k₀ : Context} {l : Loader} {w : Workspace}

/-- The loader knows everything that came since some time before. -/
structure Owns (k₀ : Context) (l : Loader) (k : Context) : Prop where
  outgrows : k₀.Outgrows k
  types : ∀ id, k.catalogue.contains id = true → k₀.catalogue.contains id = true ∨ id ∈ l.types
  new : ∀ id ∈ l.types, k₀.catalogue.handle? id = none
  bodies : ∀ n ∈ l.bodies, k₀.bodies.size ≤ n

theorem unloadBodies_spec {first : Nat} (bodies : Array ScriptBody) {numbers : List Nat}
    (h : ∀ n ∈ numbers, first ≤ n) :
    (unloadBodies bodies numbers).size = bodies.size ∧
      ∀ n < first, (unloadBodies bodies numbers)[n]? = bodies[n]? := by
  induction numbers generalizing bodies with
  | nil => exact ⟨rfl, fun _ _ => rfl⟩
  | cons number numbers ih =>
    obtain ⟨hnumber, hnumbers⟩ := List.forall_mem_cons.mp h
    obtain ⟨hsize, hbody⟩ := ih (bodies.modify number fun b => { b with state := .unloaded }) hnumbers
    refine ⟨hsize.trans Array.size_modify, fun n hn => (hbody n hn).trans ?_⟩
    rw [Array.getElem?_modify, if_neg (by omega)]

theorem Owns.restored (h : Owns k₀ l w.context) : k₀.Restored (l.unload w).2.context := by
  obtain ⟨hsize, hbody⟩ := unloadBodies_spec w.context.bodies h.bodies
  obtain ⟨hcatalogue, hgone⟩ := h.outgrows.catalogue.removeTypes h.new
  rw [unload_context]
  refine ⟨⟨hcatalogue, ?_, fun n hn => (hbody n hn).trans (h.outgrows.body n hn)⟩, fun id j hj => ?_⟩
  · rw [hsize]
    exact h.outgrows.bodies_le
  · obtain ⟨hj, hnot⟩ := hgone id j hj
    have hcontains : w.context.catalogue.contains id = true := by
      rw [Catalogue.contains_eq, show w.context.catalogue.handle? id = some j from hj]
      rfl
    have hold := (h.types id hcontains).resolve_right hnot
    rw [Catalogue.contains_eq] at hold
    obtain ⟨i, hi⟩ := Option.isSome_iff_exists.mp hold
    have hsame := h.outgrows.catalogue.handle id i hi
    rw [show w.context.catalogue.handle? id = some j from hj] at hsame
    cases hsame
    exact hi

end Loader

end Flowscript
