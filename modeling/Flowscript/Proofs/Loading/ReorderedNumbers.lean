import Flowscript.Proofs.CollectionLemmas
import Flowscript.Proofs.Loading.BodyLifetimes
import Flowscript.Proofs.Loading.ReorderedDeclarations

/-! # Numbers in another order

Types and bodies are numbered in the order in which they come. In another order they have other numbers;
the functions that a type gets are those of its script, in the order in which the script has them.
-/
namespace Flowscript

section Reindex

variable {κ : Type} [BEq κ] {first n i j : Nat} {keys keys' : List κ} {key : κ}

/-- The number, from some number on, that the thing with a number gets in another order. -/
def reindex (first : Nat) (keys keys' : List κ) (n : Nat) : Nat :=
  if n < first then n
  else match keys[n - first]? with
    | some key => first + keys'.idxOf key
    | none => n

theorem reindex_of_lt (hn : n < first) : reindex first keys keys' n = n := if_pos hn

theorem reindex_of_length_le (hn : first + keys.length ≤ n) : reindex first keys keys' n = n := by
  unfold reindex
  rw [if_neg (by omega), List.getElem?_eq_none (by omega)]

theorem reindex_add (hkey : keys[i]? = some key) : reindex first keys keys' (first + i) = first + keys'.idxOf key := by
  unfold reindex
  rw [if_neg (by omega), Nat.add_sub_cancel_left, hkey]

theorem le_reindex (hn : first ≤ n) : first ≤ reindex first keys keys' n := by
  unfold reindex
  rw [if_neg (by omega)]
  split
  · exact Nat.le_add_right _ _
  · exact hn

variable [LawfulBEq κ]

end Reindex

namespace Loader

variable {c₀ c c' : Catalogue} {scripts scripts' done done' : List Script} {s : Script} {i : Nat}

/-- What tells declared functions apart. -/
def Piece.key (p : Piece) : String × String := (p.script.name, p.graph.name)

def declaredBy (c₀ c : Catalogue) (s : Script) : List Piece :=
  match if c₀.contains s.type then none else c.handle? s.type with
  | some h => (firstNamed [] s.functions).map (⟨s, h, ·⟩)
  | none => []

def repeatedBy (c₀ : Catalogue) (s : Script) : List ScriptError :=
  if c₀.contains s.type then [] else repeatedNames s.name [] s.functions

theorem firstNamed_spec (names : List String) (gs : List Graph) :
    ((firstNamed names gs).map (·.name)).Nodup ∧ ∀ g ∈ firstNamed names gs, g.name ∉ names := by
  induction gs generalizing names with
  | nil => exact ⟨List.nodup_nil, List.forall_mem_nil _⟩
  | cons g gs ih =>
    rw [firstNamed]
    split
    · exact ih names
    · next hnew =>
      obtain ⟨hnodup, hnames⟩ := ih (g.name :: names)
      rw [List.contains_iff_mem] at hnew
      refine ⟨List.nodup_cons.mpr ⟨fun hmem => ?_, hnodup⟩,
        List.forall_mem_cons.mpr ⟨hnew, fun g' hg' => ?_⟩⟩
      · obtain ⟨g', hg', hname⟩ := List.mem_map.mp hmem
        exact hnames g' hg' (hname ▸ List.mem_cons_self)
      · exact fun hmem => hnames g' hg' (List.mem_cons_of_mem _ hmem)

theorem mem_declaredBy {p : Piece} (hp : p ∈ declaredBy c₀ c s) :
    p.script = s ∧ c₀.contains s.type = false ∧ c.handle? s.type = some p.handle ∧
      p.graph ∈ firstNamed [] s.functions := by
  unfold declaredBy at hp
  split at hp
  · next h hh =>
    obtain ⟨g, hg, rfl⟩ := List.mem_map.mp hp
    split at hh
    · cases hh
    · next hnot => exact ⟨rfl, by simpa using hnot, hh, hg⟩
  · cases hp

theorem declaredBy_of_new (hnew : c₀.contains s.type = false) {h : Handle} (hh : c.handle? s.type = some h) :
    declaredBy c₀ c s = (firstNamed [] s.functions).map (⟨s, h, ·⟩) := by
  rw [declaredBy, hnew, if_neg Bool.false_ne_true, hh]

theorem nodup_keys (hnodup : (scripts.map (·.type)).Nodup) :
    ((scripts.flatMap (declaredBy c₀ c)).map Piece.key).Nodup := by
  induction scripts with
  | nil => exact List.nodup_nil
  | cons s scripts ih =>
    obtain ⟨hnot, hnodup⟩ := List.nodup_cons.mp hnodup
    rw [List.flatMap_cons, List.map_append, List.nodup_append]
    refine ⟨?_, ih hnodup, ?_⟩
    · unfold declaredBy
      split
      · rw [List.map_map]
        refine List.Nodup.of_map Prod.snd ?_
        rw [List.map_map]
        exact (firstNamed_spec [] s.functions).1
      · exact List.nodup_nil
    · rintro _ hkey _ hkey' rfl
      obtain ⟨p, hp, rfl⟩ := List.mem_map.mp hkey
      obtain ⟨q, hq, hsame⟩ := List.mem_map.mp hkey'
      obtain ⟨t, ht, hq⟩ := List.mem_flatMap.mp hq
      rw [Piece.key, Piece.key, (mem_declaredBy hp).1, (mem_declaredBy hq).1] at hsame
      exact hnot (List.mem_map.mpr ⟨t, ht, congrArg TypeId.ofName (Prod.mk.inj hsame).1⟩)

theorem filter_declared (hc : c.Filed) (hnodup : (scripts.map (·.type)).Nodup) (hs : s ∈ scripts)
    (hnew : c₀.contains s.type = false) {h : Handle} (hh : c.handle? s.type = some h) :
    (scripts.flatMap (declaredBy c₀ c)).filter (·.handle == h) =
    (firstNamed [] s.functions).map (⟨s, h, ·⟩) := by
  have hothers : ∀ t ∈ scripts, t ≠ s → (declaredBy c₀ c t).filter (·.handle == h) = [] := by
    intro t ht hne
    refine List.filter_eq_nil_iff.mpr fun p hp hsame => hne ?_
    have hhandle := (mem_declaredBy hp).2.2.1
    rw [beq_iff_eq.mp hsame] at hhandle
    refine List.inj_on_of_nodup_map hnodup ht hs ?_
    rw [← hc.info_id hhandle, hc.info_id hh]
  have hown : (declaredBy c₀ c s).filter (·.handle == h) = (firstNamed [] s.functions).map (⟨s, h, ·⟩) := by
    rw [declaredBy_of_new hnew hh]
    refine List.filter_eq_self.mpr fun p hp => ?_
    obtain ⟨g, -, rfl⟩ := List.mem_map.mp hp
    exact beq_self_eq_true h
  rw [List.filter_flatMap, ← hown]
  obtain ⟨before, after, rfl⟩ := List.append_of_mem hs
  have happart := hnodup
  rw [List.map_append, List.map_cons, List.nodup_append, List.nodup_cons] at happart
  rw [List.flatMap_append, List.flatMap_cons, List.flatMap_eq_nil_iff.mpr, List.flatMap_eq_nil_iff.mpr,
    List.nil_append, List.append_nil]
  · refine fun t ht => hothers t (List.mem_append_right _ (List.mem_cons_of_mem _ ht)) ?_
    rintro rfl
    exact happart.2.1.1 (List.mem_map_of_mem ht)
  · refine fun t ht => hothers t (List.mem_append_left _ ht) ?_
    rintro rfl
    exact happart.2.2 _ (List.mem_map_of_mem ht) _ List.mem_cons_self rfl

section Pieces

variable {es : List ScriptError} {hs : List Handle} (hnodup : (scripts.map (·.type)).Nodup)
  (hdeclares : DeclaresAll c₀ (schedule c₀ scripts) es hs c)
include hnodup hdeclares

omit hdeclares in
theorem mem_accepted_iff {d : Candidate} (hd : d ∈ numbered scripts) :
    d ∈ accepted c₀ scripts ↔ c₀.contains d.2.type = false := by
  rw [accepted, screen_numbered hnodup, List.mem_filter]
  simp [hd]

theorem lookup_handlesOf_eq {d : Candidate} (hd : d ∈ numbered scripts) :
    (handlesOf (schedule c₀ scripts) hs).lookup d.1 =
      if c₀.contains d.2.type then none else c.handle? d.2.type := by
  cases hlookup : (handlesOf (schedule c₀ scripts) hs).lookup d.1 with
  | some k =>
    obtain ⟨hmem, hhandle⟩ := lookup_handlesOf hdeclares hd hlookup
    rw [(mem_accepted_iff hnodup hd).mp hmem, if_neg Bool.false_ne_true, hhandle]
  | none =>
    split
    · rfl
    · next hnot =>
      have hmem := (mem_accepted_iff hnodup hd).mpr (by simpa using hnot)
      have hposition : d.1 ∈ (handlesOf (schedule c₀ scripts) hs).map (·.1) := by
        rw [handlesOf, List.map_fst_zip (by rw [List.length_map, hdeclares.length_eq])]
        obtain ⟨r, hr, rfl⟩ := List.mem_map.mp ((schedule_perm c₀ scripts).mem_iff.mpr hmem)
        exact List.mem_map_of_mem hr
      obtain ⟨q, hq, hsame⟩ := List.mem_map.mp hposition
      have hnone := List.lookup_eq_none_iff.mp hlookup q hq
      simp [hsame] at hnone

theorem allPieces_eq : allPieces c₀ scripts hs = scripts.flatMap (declaredBy c₀ c) := by
  have hpieces : ∀ d ∈ numbered scripts,
      piecesOf (handlesOf (schedule c₀ scripts) hs) d = declaredBy c₀ c d.2 := fun d hd => by
    rw [piecesOf, lookup_handlesOf_eq hnodup hdeclares hd]
    rfl
  rw [allPieces, pieces, List.flatMap_congr hpieces, ← List.flatMap_map (f := fun d : Candidate => d.2),
    map_snd_numbered]

theorem allRepeated_eq : allRepeated c₀ scripts hs = scripts.flatMap (repeatedBy c₀) := by
  have hrepeated : ∀ d ∈ numbered scripts,
      repeatedOf (handlesOf (schedule c₀ scripts) hs) d = repeatedBy c₀ d.2 := fun d hd => by
    rw [repeatedOf, lookup_handlesOf_eq hnodup hdeclares hd, repeatedBy]
    cases hold : c₀.contains d.2.type with
    | true => rfl
    | false =>
      have hround := (schedule_perm c₀ scripts).mem_iff.mpr ((mem_accepted_iff hnodup hd).mpr hold)
      obtain ⟨r, hr, rfl⟩ := List.mem_map.mp hround
      have hnow := hdeclares.contains_iff.mpr (.inr ⟨r, hr, rfl⟩)
      rw [Catalogue.contains_eq] at hnow
      obtain ⟨h, hh⟩ := Option.isSome_iff_exists.mp hnow
      rw [if_neg Bool.false_ne_true, if_neg Bool.false_ne_true, hh]
  rw [allRepeated, List.flatMap_congr hrepeated, ← List.flatMap_map (f := fun d : Candidate => d.2),
    map_snd_numbered]

end Pieces

section Furnish

variable {k₀ : Context} {n : Nat} {worldType : String}

theorem filter_zipIdx {ps : List Piece} (hnodup : (ps.map Piece.key).Nodup) (n : Nat) (h : Handle) :
    (ps.zipIdx n).filter (·.1.handle == h) =
      (ps.filter (·.handle == h)).map fun p => (p, n + (ps.map Piece.key).idxOf p.key) := by
  rw [zipIdx_eq_map hnodup, List.filter_map]
  rfl

theorem Laid.le_of_declared (hl : Laid k₀.catalogue done c) {p : Piece}
    (hp : p ∈ scripts.flatMap (declaredBy k₀.catalogue c)) : k₀.catalogue.infos.size ≤ p.handle := by
  obtain ⟨s, -, hp⟩ := List.mem_flatMap.mp hp
  obtain ⟨-, hnew, hhandle, -⟩ := mem_declaredBy hp
  rcases hl.known _ _ hhandle with hold | ⟨i, t, -, -, hhandle⟩
  · rw [Catalogue.contains_eq, hold] at hnew
    cases hnew
  · rw [hhandle]
    exact Nat.le_add_right _ _

theorem Laid.furnish_old (hl : Laid k₀.catalogue done c) {h : Handle} (hh : h < k₀.catalogue.infos.size) :
    (furnish worldType c ((scripts.flatMap (declaredBy k₀.catalogue c)).zipIdx n)).info h = c.info h := by
  rw [info_furnish (Nat.lt_of_lt_of_le hh hl.outgrows.size_le), List.filter_eq_nil_iff.mpr]
  · rfl
  · intro q hq hsame
    have hle := hl.le_of_declared (List.fst_mem_of_mem_zipIdx hq)
    rw [beq_iff_eq.mp hsame] at hle
    exact absurd hh (Nat.not_lt.mpr hle)

theorem Laid.furnish_new (hl : Laid k₀.catalogue done c) (hnodup : (scripts.map (·.type)).Nodup)
    (hi : done[i]? = some s) (hs : s ∈ scripts) (hnew : k₀.catalogue.contains s.type = false) :
    (furnish worldType c ((scripts.flatMap (declaredBy k₀.catalogue c)).zipIdx n)).info
        (k₀.catalogue.infos.size + i) =
      (c.info (k₀.catalogue.infos.size + i)).addFunctions ((firstNamed [] s.functions).map fun g =>
        functionOf worldType s.type g
          (n + ((scripts.flatMap (declaredBy k₀.catalogue c)).map Piece.key).idxOf (s.name, g.name))) := by
  have hhandle := hl.handle i s hi
  have hid := hl.outgrows.filed.info_id hhandle
  rw [info_furnish (hl.outgrows.filed.lt_size hhandle), filter_zipIdx (nodup_keys hnodup),
    filter_declared hl.outgrows.filed hnodup hs hnew hhandle, List.map_map, List.map_map]
  congr 1
  refine List.map_congr_left fun g _ => ?_
  simp only [Function.comp_apply, Piece.function, hid]
  rfl

end Furnish

section Shuffle

variable {k₀ : Context} {σ : Renumbering}

/-- From one order to another, types and bodies get the numbers of their keys. -/
def shuffle (k₀ : Context) (done done' : List Script) (ps ps' : List Piece) : Renumbering where
  handle := reindex k₀.catalogue.infos.size (done.map (·.type)) (done'.map (·.type))
  number := reindex k₀.bodies.size (ps.map Piece.key) (ps'.map Piece.key)

theorem reorders_shuffle (hnodup : (done.map (·.type)).Nodup) (hordered : Ordered done) (hordered' : Ordered done')
    (hperm : done.Perm done') (ps ps' : List Piece) : Reorders k₀ (shuffle k₀ done done' ps ps') done done' where
  handle _ hj := reindex_of_lt hj
  number _ hn := reindex_of_lt hn
  moves i j s hi hj := by
    have hkey : (done.map (·.type))[i]? = some s.type := by rw [List.getElem?_map, hi, Option.map_some]
    have hkey' : (done'.map (·.type))[j]? = some s.type := by rw [List.getElem?_map, hj, Option.map_some]
    have hnodup' : (done'.map (·.type)).Nodup := (hperm.map _).nodup_iff.mp hnodup
    show reindex _ _ _ _ = _
    rw [reindex_add hkey, idxOf_of_getElem? hnodup' hkey']
  ordered := hordered
  ordered' := hordered'
  perm := hperm

theorem renames_of_laid (hfiled : k₀.catalogue.Filed) (hclosed : k₀.Closed) (hr : Reorders k₀ σ done done')
    (hbeyond : ∀ h, k₀.catalogue.infos.size + done.length ≤ h → σ.handle h = h)
    (hl : Laid k₀.catalogue done c)
    (hl' : Laid k₀.catalogue done' c')
    (hsame : ∀ i s, done[i]? = some s → c.SameAt σ c' (k₀.catalogue.infos.size + i)) : c.Renames σ c' := by
  have hfind : ∀ {i s}, done[i]? = some s → ∃ j, done'[j]? = some s := fun hi =>
    List.mem_iff_getElem?.mp (hr.perm.mem_iff.mp (List.mem_of_getElem? hi))
  have hfind' : ∀ {j s}, done'[j]? = some s → ∃ i, done[i]? = some s := fun hj =>
    List.mem_iff_getElem?.mp (hr.perm.mem_iff.mpr (List.mem_of_getElem? hj))
  refine ⟨hl.outgrows.filed, hl'.outgrows.filed, fun h => ?_, fun id => Option.ext fun x => ?_,
    hl'.outgrows.events.trans hl.outgrows.events.symm⟩
  · rcases lt_or_ge h k₀.catalogue.infos.size with hlt | hle
    · rw [hr.handle h hlt, hl'.outgrows.info_of_lt hlt, hl.outgrows.info_of_lt hlt, type_of_closed hclosed hr hlt]
    · obtain ⟨i, rfl⟩ := Nat.exists_eq_add_of_le hle
      cases hi : done[i]? with
      | some s => exact hsame i s hi
      | none =>
        have hlength : done.length ≤ i := List.getElem?_eq_none_iff.mp hi
        rw [hbeyond _ (by omega), Catalogue.info_of_size_le (by rw [hl'.size, ← hr.perm.length_eq]; omega),
          Catalogue.info_of_size_le (by rw [hl.size]; omega)]
        rfl
  · rw [Option.map_eq_some_iff]
    constructor
    · intro hx
      rcases hl'.known id x hx with hold | ⟨j, s, hj, rfl, rfl⟩
      · exact ⟨x, hl.outgrows.handle id x hold, hr.handle x (hfiled.lt_size hold)⟩
      · obtain ⟨i, hi⟩ := hfind' hj
        exact ⟨_, hl.handle i s hi, hr.moves i j s hi hj⟩
    · rintro ⟨y, hy, rfl⟩
      rcases hl.known id y hy with hold | ⟨i, s, hi, rfl, rfl⟩
      · rw [hr.handle y (hfiled.lt_size hold)]
        exact hl'.outgrows.handle id y hold
      · obtain ⟨j, hj⟩ := hfind hi
        rw [hr.moves i j s hi hj]
        exact hl'.handle j s hj

end Shuffle

end Loader

end Flowscript
