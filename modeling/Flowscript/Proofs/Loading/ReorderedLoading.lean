import Flowscript.Proofs.Loading.ReorderedNumbers

/-! # Loading in another order

Scripts whose names have different hashes, and whose fields form no circle, can be given in any order. The same
types are declared, with the same functions, the same errors are found, and every function becomes the same;
only the numbers of types and bodies and the order of what is reported depend on the order.
-/
namespace Flowscript

namespace Loader

variable {worldType : String} {scripts scripts' : List Script} {w : Workspace} {es es' : List ScriptError}
  {hs hs' : List Handle} {c c' : Catalogue} {k k' : Context}

theorem Acyclic.perm (hperm : scripts.Perm scripts') (h : Acyclic scripts) : Acyclic scripts' := fun s hs hcircle =>
  h s (hperm.mem_iff.mpr hs) (hcircle.lift id fun _ _ hpart => ⟨hperm.mem_iff.mpr hpart.1, hpart.2⟩)

theorem mem_order_iff_new (hnodup : (scripts.map (·.type)).Nodup) {s : Script} :
    s ∈ order w.catalogue scripts ↔ s ∈ scripts ∧ w.catalogue.contains s.type = false := by
  rw [(order_perm hnodup).mem_iff, List.mem_filter, Bool.not_eq_true']

theorem nodup_order (hnodup : (scripts.map (·.type)).Nodup) :
    ((order w.catalogue scripts).map (·.type)).Nodup :=
  ((order_perm hnodup).map _).nodup_iff.mpr (hnodup.sublist (List.filter_sublist.map _))

/-- What numbers types and bodies have where scripts come in another order, and lead to another catalogue. -/
def reorder (w : Workspace) (scripts scripts' : List Script) (c c' : Catalogue) : Renumbering :=
  shuffle w.context (order w.catalogue scripts) (order w.catalogue scripts')
    (scripts.flatMap (declaredBy w.catalogue c)) (scripts'.flatMap (declaredBy w.catalogue c'))

theorem reorders (hacyclic : Acyclic scripts) (hnodup : (scripts.map (·.type)).Nodup)
    (hperm : scripts.Perm scripts') (c c' : Catalogue) :
    Reorders w.context (reorder w scripts scripts' c c') (order w.catalogue scripts) (order w.catalogue scripts') := by
  have hnodup' : (scripts'.map (·.type)).Nodup := (hperm.map _).nodup_iff.mp hnodup
  exact reorders_shuffle (nodup_order hnodup) hacyclic.ordered (hacyclic.perm hperm).ordered
    ((order_perm hnodup).trans ((hperm.filter _).trans (order_perm hnodup').symm)) _ _

theorem Builds.placed (hc : w.catalogue.Filed) (hacyclic : Acyclic scripts) (hnodup : (scripts.map (·.type)).Nodup)
    (h : Builds worldType scripts w es hs c k) :
    Laid w.catalogue (order w.catalogue scripts) c ∧ ∃ errors : TypeId → List ScriptError,
      es = (order w.catalogue scripts).flatMap (errors ·.type) ∧
      ∀ i s, (order w.catalogue scripts)[i]? = some s →
        Placed w.context w.machine c ((order w.catalogue scripts).take i) s (errors s.type) := by
  have hnew : ∀ r ∈ schedule w.catalogue scripts, w.catalogue.handle? r.1.2.type = none := fun _ =>
    handle?_of_mem_schedule
  have hapart := nodup_order (w := w) hnodup
  rw [order, List.map_map] at hapart
  obtain ⟨hlaid, errors, hes, hplaced⟩ := h.takes.placed hacyclic.blocked (.nil hc) hnew hapart (.refl w.machine)
  refine ⟨hlaid, errors, ?_, fun i s hi => ?_⟩
  · rw [hes, order, List.flatMap_map]
  · rw [order, List.getElem?_map] at hi
    obtain ⟨r, hr, rfl⟩ := Option.map_eq_some_iff.mp hi
    exact hplaced i r hr

section Pieces

variable {σ : Renumbering}

/-- A declared function where its type has another number. -/
def Piece.renumber (σ : Renumbering) (p : Piece) : Piece := { p with handle := σ.handle p.handle }

/-- What a body comes to when it is compiled, but for its number. -/
def Piece.settled (c : Catalogue) (p : Piece) : Option BodyState := settledOf c (p.pending c 0)

def Piece.errors (c : Catalogue) (p : Piece) : List ScriptError := bodyErrors c (p.pending c 0)

theorem declaredBy_renumbered (hn : c.Renames σ c') (c₀ : Catalogue) (s : Script) :
    declaredBy c₀ c' s = (declaredBy c₀ c s).map (Piece.renumber σ) := by
  unfold declaredBy
  rw [hn.handle]
  split
  · next h hh =>
    split at hh
    · cases hh
    · next hnot =>
      obtain ⟨j, hj, rfl⟩ := Option.map_eq_some_iff.mp hh
      rw [if_neg hnot, hj, List.map_map]
      rfl
  · next hnone =>
    split at hnone
    · next hold => rw [if_pos hold, List.map_nil]
    · next hnot =>
      rw [if_neg hnot, Option.map_eq_none_iff.mp hnone, List.map_nil]

theorem Piece.settled_renumbered (hn : c.Renames σ c') (p : Piece) :
    (p.renumber σ).settled c' = (p.settled c).map σ.state ∧ (p.renumber σ).errors c' = p.errors c := by
  have hid : (c'.info (σ.handle p.handle)).id = (c.info p.handle).id := by rw [hn.info, Renumbering.id_type]
  have hcompile : Program.compile ((p.renumber σ).pending c' 0).graph c' ((p.renumber σ).pending c' 0).setting =
      (Program.compile (p.pending c 0).graph c (p.pending c 0).setting).map σ.program := by
    rw [← Program.compile_renumbered hn]
    show Program.compile p.graph c' (p.setting (c'.info (σ.handle p.handle)).id) = _
    rw [hid]
    rfl
  unfold settled Piece.errors settledOf bodyErrors
  rw [hcompile]
  cases Program.compile (p.pending c 0).graph c (p.pending c 0).setting with
  | ok program => exact ⟨rfl, rfl⟩
  | error failure => cases failure <;> exact ⟨rfl, rfl⟩

variable (h : Builds worldType scripts w es hs c k)
include h

theorem Builds.id_eq (j : Handle) : (k.catalogue.info j).id = (c.info j).id := h.furnished.outfits.id_eq j

/-- Compiling gets through if each declared function is compiled or found wrong. -/
theorem Builds.through_pieces : (built worldType scripts w).1.through = true ↔
    ∀ p ∈ allPieces w.catalogue scripts hs, (p.settled k.catalogue).isSome := by
  have hpending : ∀ q : Piece × Nat, settledOf k.catalogue (q.1.pending c q.2) = q.1.settled k.catalogue :=
    fun q => by
      rw [← Piece.pending_congr h.id_eq]
      rfl
  rw [h.through_iff, allPending, pendingOf, List.forall_mem_map]
  simp only [hpending]
  rw [← List.forall_mem_map (f := fun q : Piece × Nat => q.1) (P := fun p => (p.settled k.catalogue).isSome = true),
    List.zipIdx_map_fst]

theorem Builds.reported_pieces (hthrough : (built worldType scripts w).1.through = true) :
    reportedOf k.catalogue (allPending w scripts hs c) =
      (allPieces w.catalogue scripts hs).flatMap (Piece.errors k.catalogue) := by
  have hpending : ∀ q : Piece × Nat, bodyErrors k.catalogue (q.1.pending c q.2) = q.1.errors k.catalogue :=
    fun q => by
      rw [← Piece.pending_congr h.id_eq]
      rfl
  rw [reportedOf_eq (h.through_iff.mp hthrough), allPending, pendingOf, List.flatMap_map]
  simp only [hpending]
  rw [← List.flatMap_map (f := fun q : Piece × Nat => q.1), List.zipIdx_map_fst]

end Pieces

section Furnished

variable (hfiled : w.catalogue.Filed) (hacyclic : Acyclic scripts) (hnodup : (scripts.map (·.type)).Nodup)
  (h : Builds worldType scripts w es hs c k)
include hfiled hacyclic hnodup h

omit hfiled hacyclic in
theorem Builds.catalogue_eq : k.catalogue =
    furnish worldType c ((scripts.flatMap (declaredBy w.catalogue c)).zipIdx w.context.bodies.size) := by
  rw [h.furnished.catalogue, allPieces_eq hnodup h.declares]

theorem Builds.info_old {j : Handle} (hj : j < w.context.catalogue.infos.size) : k.catalogue.info j = c.info j := by
  rw [h.catalogue_eq hnodup]
  exact (h.placed hfiled hacyclic hnodup).1.furnish_old hj

theorem Builds.info_new {i : Nat} {s : Script} (hi : (order w.catalogue scripts)[i]? = some s) :
    k.catalogue.info (w.context.catalogue.infos.size + i) =
      (c.info (w.context.catalogue.infos.size + i)).addFunctions ((firstNamed [] s.functions).map fun g =>
        functionOf worldType s.type g (w.context.bodies.size +
          ((scripts.flatMap (declaredBy w.catalogue c)).map Piece.key).idxOf (s.name, g.name))) := by
  obtain ⟨hs, hnew⟩ := (mem_order_iff_new hnodup).mp (List.mem_of_getElem? hi)
  rw [h.catalogue_eq hnodup]
  exact (h.placed hfiled hacyclic hnodup).1.furnish_new hnodup hi hs hnew

theorem Builds.key_mem {i : Nat} {s : Script} (hi : (order w.catalogue scripts)[i]? = some s) {g : Graph}
    (hg : g ∈ firstNamed [] s.functions) :
    (s.name, g.name) ∈ (scripts.flatMap (declaredBy w.catalogue c)).map Piece.key := by
  obtain ⟨hs, hnew⟩ := (mem_order_iff_new hnodup).mp (List.mem_of_getElem? hi)
  have hhandle := (h.placed hfiled hacyclic hnodup).1.handle i s hi
  have hmem : (⟨s, w.catalogue.infos.size + i, g⟩ : Piece) ∈ declaredBy w.catalogue c s := by
    rw [declaredBy_of_new hnew hhandle]
    exact List.mem_map_of_mem hg
  exact List.mem_map_of_mem (List.mem_flatMap.mpr ⟨s, hs, hmem⟩)

theorem Builds.lookup_old {id : TypeId} {t : TypeInfo} (ht : w.catalogue.lookup? id = some t) :
    k.catalogue.lookup? id = some t := by
  have houtgrows := (h.placed hfiled hacyclic hnodup).1.outgrows
  obtain ⟨j, hj, rfl⟩ := Option.map_eq_some_iff.mp ht
  have hlt := hfiled.lt_size hj
  rw [Catalogue.lookup?, h.furnished.outfits.handle?_eq, houtgrows.handle id j hj, Option.map_some,
    h.info_old hfiled hacyclic hnodup hlt, houtgrows.info_of_lt hlt]

end Furnished

section Both

variable (hw : w.Reliable scripts) (hacyclic : Acyclic scripts) (hnodup : (scripts.map (·.type)).Nodup)
  (hperm : scripts.Perm scripts') (h : Builds worldType scripts w es hs c k)
  (h' : Builds worldType scripts' w es' hs' c' k')
include hw hacyclic hnodup hperm h h'

theorem Builds.reordered : c.Renames (reorder w scripts scripts' c c') c' ∧ es'.Perm es := by
  have hnodup' : (scripts'.map (·.type)).Nodup := (hperm.map _).nodup_iff.mp hnodup
  have hr := reorders (w := w) hacyclic hnodup hperm c c'
  obtain ⟨hlaid, errors, rfl, hplaced⟩ := h.placed hw.filed hacyclic hnodup
  obtain ⟨hlaid', errors', rfl, hplaced'⟩ := h'.placed hw.filed (hacyclic.perm hperm) hnodup'
  have halike : ∀ i s, (order w.catalogue scripts)[i]? = some s → errors' s.type = errors s.type ∧
      c.SameAt (reorder w scripts scripts' c c') c' (w.context.catalogue.infos.size + i) := fun i s hi => by
    obtain ⟨j, hj⟩ := List.mem_iff_getElem?.mp (hr.perm.mem_iff.mp (List.mem_of_getElem? hi))
    obtain ⟨herrors, hsame, -⟩ := placed_alike hw hr (fun s => (mem_order_iff_new hnodup).mp) hplaced hplaced' hi hj
    exact ⟨herrors, hsame⟩
  refine ⟨renames_of_laid hw.filed hw.closed hr (fun h hh => reindex_of_length_le ?_) hlaid hlaid'
    fun i s hi => (halike i s hi).2, ?_⟩
  · rwa [List.length_map]
  · refine (hr.perm.symm.flatMap_right _).trans (.of_eq (List.flatMap_congr fun s hs => ?_))
    obtain ⟨i, hi⟩ := List.mem_iff_getElem?.mp hs
    exact (halike i s hi).1

theorem Builds.furnished_renames : k.catalogue.Renames (reorder w scripts scripts' c c') k'.catalogue := by
  have hacyclic' := hacyclic.perm hperm
  have hnodup' : (scripts'.map (·.type)).Nodup := (hperm.map _).nodup_iff.mp hnodup
  have hr := reorders (w := w) hacyclic hnodup hperm c c'
  obtain ⟨hn, -⟩ := h.reordered hw hacyclic hnodup hperm h'
  have hsize : k.catalogue.infos.size = c.infos.size := by rw [h.catalogue_eq hnodup, size_furnish]
  have hsize' : k'.catalogue.infos.size = c'.infos.size := by rw [h'.catalogue_eq hnodup', size_furnish]
  refine ⟨h.furnished.outfits.filed hn.filed, h'.furnished.outfits.filed hn.filed', fun j => ?_, fun id => ?_, ?_⟩
  · rcases lt_or_ge j w.context.catalogue.infos.size with hlt | hle
    · have hinfo := hn.info j
      rw [hr.handle j hlt] at hinfo ⊢
      rw [h.info_old hw.filed hacyclic hnodup hlt, h'.info_old hw.filed hacyclic' hnodup' hlt, hinfo]
    · obtain ⟨i, rfl⟩ := Nat.exists_eq_add_of_le hle
      have hinfo := hn.info (w.context.catalogue.infos.size + i)
      cases hi : (order w.catalogue scripts)[i]? with
      | none =>
        have hlength : (order w.catalogue scripts).length ≤ i := List.getElem?_eq_none_iff.mp hi
        have hbeyond : (reorder w scripts scripts' c c').handle (w.context.catalogue.infos.size + i) =
            w.context.catalogue.infos.size + i := reindex_of_length_le (by rw [List.length_map]; omega)
        have hcount : c.infos.size = w.context.catalogue.infos.size + _ := (h.placed hw.filed hacyclic hnodup).1.size
        have hcount' : c'.infos.size = w.context.catalogue.infos.size + _ :=
          (h'.placed hw.filed hacyclic' hnodup').1.size
        rw [← hr.perm.length_eq] at hcount'
        rw [hbeyond, Catalogue.info_of_size_le (by omega), Catalogue.info_of_size_le (by omega)]
        rfl
      | some s =>
        obtain ⟨j, hj⟩ := List.mem_iff_getElem?.mp (hr.perm.mem_iff.mp (List.mem_of_getElem? hi))
        rw [hr.moves i j s hi hj] at hinfo ⊢
        rw [h.info_new hw.filed hacyclic hnodup hi, h'.info_new hw.filed hacyclic' hnodup' hj, hinfo,
          ← Renumbering.addFunctions_type, List.map_map]
        congr 1
        refine List.map_congr_left fun g hg => ?_
        have hnumber : (reorder w scripts scripts' c c').number _ = _ :=
          reindex_add (List.getElem?_idxOf (h.key_mem hw.filed hacyclic hnodup hi hg))
        rw [Function.comp_apply, Renumbering.function,
          show (functionOf worldType s.type g _).body = .script _ from rfl, Renumbering.body, hnumber]
        rfl
  · exact (h'.furnished.outfits.handle?_eq id).trans ((hn.handle id).trans
      (congrArg _ (h.furnished.outfits.handle?_eq id).symm))
  · exact h'.furnished.outfits.events.trans (hn.events.trans h.furnished.outfits.events.symm)

omit hw hacyclic hnodup hperm h h' in
theorem Builds.declared_perm (hn : c.Renames (reorder w scripts scripts' c c') c') (hperm : scripts.Perm scripts')
    (hnodup : (scripts.map (·.type)).Nodup) (h : Builds worldType scripts w es hs c k)
    (h' : Builds worldType scripts' w es' hs' c' k') : (allPieces w.catalogue scripts' hs').Perm
      ((allPieces w.catalogue scripts hs).map (Piece.renumber (reorder w scripts scripts' c c'))) := by
  have hnodup' : (scripts'.map (·.type)).Nodup := (hperm.map _).nodup_iff.mp hnodup
  rw [allPieces_eq hnodup h.declares, allPieces_eq hnodup' h'.declares, List.map_flatMap]
  exact (hperm.symm.flatMap_right _).trans
    (.of_eq (List.flatMap_congr fun s _ => declaredBy_renumbered hn w.catalogue s))

theorem Builds.through_eq : (built worldType scripts' w).1.through = (built worldType scripts w).1.through := by
  obtain ⟨hn, -⟩ := h.reordered hw hacyclic hnodup hperm h'
  have hfurnished := h.furnished_renames hw hacyclic hnodup hperm h'
  have hpieces := h.declared_perm hn hperm hnodup h'
  rw [Bool.eq_iff_iff, h'.through_pieces, h.through_pieces]
  simp only [hpieces.mem_iff, List.forall_mem_map, (Piece.settled_renumbered hfurnished _).1, Option.isSome_map]

theorem Builds.errors_perm (hthrough : (built worldType scripts w).1.through = true) :
    (built worldType scripts' w).2.errors.reverse.Perm (built worldType scripts w).2.errors.reverse := by
  have hnodup' : (scripts'.map (·.type)).Nodup := (hperm.map _).nodup_iff.mp hnodup
  have hthrough' := (h.through_eq hw hacyclic hnodup hperm h').trans hthrough
  obtain ⟨hn, hes⟩ := h.reordered hw hacyclic hnodup hperm h'
  have hfurnished := h.furnished_renames hw hacyclic hnodup hperm h'
  have hpieces := h.declared_perm hn hperm hnodup h'
  rw [h.errors, h'.errors, screened_eq hnodup, screened_eq hnodup', allRepeated_eq hnodup h.declares,
    allRepeated_eq hnodup' h'.declares, h.reported_pieces hthrough, h'.reported_pieces hthrough']
  refine (((hperm.symm.filter _).map _).append hes).append (hperm.symm.flatMap_right _) |>.append ?_
  refine (hpieces.flatMap_right _).trans (.of_eq ?_)
  rw [List.flatMap_map]
  exact List.flatMap_congr fun p _ => (Piece.settled_renumbered hfurnished p).2

theorem Builds.types_perm :
    (built worldType scripts' w).1.types.Perm (built worldType scripts w).1.types := by
  have hr := reorders (w := w) hacyclic hnodup hperm c c'
  have htypes : ∀ {scripts : List Script}, (order w.catalogue scripts).map (·.type) =
      (schedule w.catalogue scripts).map (·.1.2.type) := List.map_map
  rw [h.types_eq hw.filed, h'.types_eq hw.filed, ← htypes, ← htypes]
  exact hr.perm.symm.map _

theorem Builds.new_bodies (hthrough : (built worldType scripts w).1.through = true) {n : Nat}
    (hn : w.context.bodies.size ≤ n) :
    w.context.bodies.size ≤ (reorder w scripts scripts' c c').number n ∧
      (built worldType scripts' w).2.workspace.context.bodies[(reorder w scripts scripts' c c').number n]? =
        ((built worldType scripts w).2.workspace.context.bodies[n]?).map
          (reorder w scripts scripts' c c').scriptBody := by
  have hnodup' : (scripts'.map (·.type)).Nodup := (hperm.map _).nodup_iff.mp hnodup
  have hthrough' := (h.through_eq hw hacyclic hnodup hperm h').trans hthrough
  obtain ⟨hrenames, -⟩ := h.reordered hw hacyclic hnodup hperm h'
  have hfurnished := h.furnished_renames hw hacyclic hnodup hperm h'
  have hpieces := h.declared_perm hrenames hperm hnodup h'
  have heq := allPieces_eq hnodup h.declares
  have heq' := allPieces_eq hnodup' h'.declares
  have hsize := h.size_bodies
  have hsize' := h'.size_bodies
  rw [hpieces.length_eq, List.length_map] at hsize'
  refine ⟨le_reindex hn, ?_⟩
  obtain ⟨i, rfl⟩ := Nat.exists_eq_add_of_le hn
  cases hi : (allPieces w.catalogue scripts hs)[i]? with
  | none =>
    have hlength := List.getElem?_eq_none_iff.mp hi
    have hbeyond : (reorder w scripts scripts' c c').number (w.context.bodies.size + i) =
        w.context.bodies.size + i := reindex_of_length_le (by rw [List.length_map, ← heq]; omega)
    rw [hbeyond, Array.getElem?_eq_none (by omega), Array.getElem?_eq_none (by omega), Option.map_none]
  | some p =>
    obtain ⟨j, hj⟩ := List.mem_iff_getElem?.mp
      (hpieces.mem_iff.mpr (List.mem_map_of_mem (List.mem_of_getElem? hi)))
    have hkey : ((scripts.flatMap (declaredBy w.catalogue c)).map Piece.key)[i]? = some p.key := by
      rw [← heq, List.getElem?_map, hi, Option.map_some]
    have hkey' : ((scripts'.flatMap (declaredBy w.catalogue c')).map Piece.key)[j]? = some p.key := by
      rw [← heq', List.getElem?_map, hj]
      rfl
    have hnumber : (reorder w scripts scripts' c c').number (w.context.bodies.size + i) =
        w.context.bodies.size + j := by
      show reindex _ _ _ _ = _
      rw [reindex_add hkey, idxOf_of_getElem? (nodup_keys hnodup') hkey']
    obtain ⟨state, hstate, hbody⟩ := h.new_body hthrough hi
    obtain ⟨state', hstate', hbody'⟩ := h'.new_body hthrough' hj
    have hsame : some state' = (some state).map (reorder w scripts scripts' c c').state := by
      rw [← hstate, ← hstate']
      exact (Piece.settled_renumbered hfurnished p).1
    cases hsame
    rw [hnumber, hbody, hbody']
    rfl

theorem Builds.sameTypes (hthrough : (built worldType scripts w).1.through = true) :
    w.context.SameTypes (reorder w scripts scripts' c c') (built worldType scripts w).2.workspace.context
      (built worldType scripts' w).2.workspace.context := by
  have hacyclic' := hacyclic.perm hperm
  have hnodup' : (scripts'.map (·.type)).Nodup := (hperm.map _).nodup_iff.mp hnodup
  have hr := reorders (w := w) hacyclic hnodup hperm c c'
  have hfurnished := h.furnished_renames hw hacyclic hnodup hperm h'
  have hcatalogue : (built worldType scripts w).2.workspace.context.catalogue = k.catalogue := by rw [h.context]
  have hcatalogue' : (built worldType scripts' w).2.workspace.context.catalogue = k'.catalogue := by rw [h'.context]
  have hevents := h.furnished.outfits.events.trans (h.placed hw.filed hacyclic hnodup).1.outgrows.events
  refine ⟨fun id => ?_, fun id t ht => ?_, ?_, fun n => h.new_bodies hw hacyclic hnodup hperm h' hthrough,
    fun n hn => ⟨hr.number n hn, h.old_body hn, h'.old_body hn⟩⟩
  · rw [hcatalogue, hcatalogue', hfurnished.lookup?_eq]
  · rw [hcatalogue, hcatalogue']
    exact ⟨h.lookup_old hw.filed hacyclic hnodup ht, h'.lookup_old hw.filed hacyclic' hnodup' ht⟩
  · rw [hcatalogue, hcatalogue']
    exact ⟨hevents, hfurnished.events.trans hevents⟩

end Both

end Loader

end Flowscript
