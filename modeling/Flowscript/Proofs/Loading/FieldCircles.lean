import Mathlib.Order.WellFounded
import Flowscript.Proofs.Loading.DeclarationPlans

/-! # Circles of fields

Values of a type hold values of the types of its fields, so no type may lead back to itself along its
fields. Scripts are declared one after another, each once, and a field is kept only if its type is
registered by then. A field is refused for closing a circle only if there is one.
-/
namespace Flowscript

/-- One type was registered before another. -/
def Catalogue.Precedes (c : Catalogue) (a b : TypeId) : Prop :=
  ∃ k k', c.handle? a = some k ∧ c.handle? b = some k' ∧ k < k'

namespace Loader

/-- A script has a field whose type is that of another. -/
def Holds (scripts : List Candidate) (s d : Candidate) : Prop :=
  d ∈ scripts ∧ ∃ f ∈ s.2.fields, f.type = d.2.name

variable {c c' : Catalogue} {s d : Candidate} {blocked : List String}
  {plan before after : List (Candidate × List String)} {es : List ScriptError} {hs : List Handle}
  {scripts : List Script} {w : Workspace}

section Handles

theorem DeclaresAll.map_id (hc : c.Filed) (h : DeclaresAll c plan es hs c') :
    (hs.map fun k => (c'.info k).id) = plan.map (·.1.2.type) := by
  induction h with
  | nil => rfl
  | @cons c c' c'' s blocked after es es' k hs first rest ih =>
    have hfiled := first.filed hc
    have hhandle := rest.grows.handle _ _ first.handle?_type
    rw [List.map_cons, List.map_cons, ih hfiled, (rest.filed hfiled).info_id hhandle]
    rfl

/-- From a handle on, the fields of each type have types with smaller handles. -/
def Rising (n : Nat) (c : Catalogue) : Prop :=
  ∀ (k : Handle) (t : TypeInfo), n ≤ k → c.infos[k]? = some t →
    ∀ f ∈ t.fields, ∃ j < k, c.handle? f.type = some j

theorem rising_size (c : Catalogue) : Rising c.infos.size c := by
  intro k t hk ht
  rw [Array.getElem?_eq_none hk] at ht
  cases ht

theorem Declares.rising {n : Nat} {s : Script} {k : Handle} (hc : c.Filed) (hrising : Rising n c)
    (h : Declares c s blocked es k c') : Rising n c' := by
  cases h with
  | @intro es ms judged =>
    obtain ⟨hid, -, hbases⟩ := typeOf_eq c s.name ms
    cases hfresh : c.handle? (typeOf c s.name ms).1.id with
    | some j => rwa [Catalogue.register_of_taken hfresh]
    | none =>
      have hgrows : c.Extends (c.register (typeOf c s.name ms).1).2 := .register hbases
      intro k t hk ht f hf
      rw [Catalogue.register_of_fresh hbases hfresh, Array.getElem?_push] at ht
      split at ht
      · next hlast =>
        -- The new type: its fields were members, whose types were registered.
        cases ht
        rw [Catalogue.withHeirs_eq] at hf
        obtain ⟨m, hm, -, htype⟩ := member_of_typeOf hf
        obtain ⟨g, -, -, hhandle⟩ := judged.field_of_mem hm
        have hhandle := Catalogue.handle?_of_handleNamed? hhandle
        refine ⟨m.type, hlast ▸ hc.lt_size hhandle, ?_⟩
        rw [htype, hc.info_id hhandle]
        exact hgrows.handle _ _ hhandle
      · obtain ⟨j, hj, hhandle⟩ := hrising k t hk ht f hf
        exact ⟨j, hj, hgrows.handle _ _ hhandle⟩

theorem DeclaresAll.rising {n : Nat} (hc : c.Filed) (hrising : Rising n c)
    (h : DeclaresAll c plan es hs c') : Rising n c' := by
  induction h with
  | nil => exact hrising
  | cons first _ ih => exact ih (first.filed hc) (first.rising hc hrising)

theorem DeclaresAll.size_le_handle (h : DeclaresAll c plan es hs c') {id : TypeId} {k : Handle}
    (hk : c'.handle? id = some k) : c.handle? id = some k ∨ c.infos.size ≤ k := by
  induction h with
  | nil => exact .inl hk
  | @cons c c' c'' s blocked after es es' j hs first _ ih =>
    rcases ih hk with hk | hk
    · rw [first.handle?_eq] at hk
      rcases Option.or_eq_some_iff.mp hk with hk | ⟨-, hk⟩
      · exact .inl hk
      · split at hk
        · exact .inr (Option.some.inj hk).le
        · cases hk
    · exact .inr (first.grows.size_le.trans hk)

end Handles

section Rejections

/-- The types that a script may not use lead back to it along fields. -/
theorem holds_of_blocked (hplan : schedule c scripts = before ++ (s, blocked) :: after) {name : String}
    (hname : name ∈ blocked) : ∃ d ∈ accepted c scripts, d.2.name = name ∧
      Holds (accepted c scripts) s d ∧ Relation.ReflTransGen (Holds (accepted c scripts)) d s := by
  have hapart := apart_screen c scripts
  obtain ⟨now, first, hsub, hfirst, hchoose, -⟩ := pending_of_rounds hapart le_rfl hplan
  have hnow := hapart.sublist hsub
  obtain ⟨d, hd, hdname, hleads⟩ := (mem_blocked_iff hnow hfirst hchoose).mp hname
  have hholds : ∀ {x y}, y ∈ waitsOn now x → Holds (accepted c scripts) x y := by
    intro x y hy
    obtain ⟨hmem, -, f, hf, htype⟩ := (mem_waitsOn_iff hnow).mp hy
    exact ⟨hsub.subset hmem, f, hf, htype⟩
  have hback : ∀ {x y}, LeadsTo (waitsOn now) x y → Relation.ReflTransGen (Holds (accepted c scripts)) x y := by
    intro x y h
    induction h with
    | refl => exact .refl
    | tail _ hstep ih => exact ih.tail (hholds hstep)
  exact ⟨d, (hholds hd).1, hdname, hholds hd, hback hleads⟩

theorem DeclaresAll.exists_of_mem (h : DeclaresAll c plan es hs c') {e : ScriptError} (he : e ∈ es) :
    ∃ before s blocked after c₁ es₁ k c₂, plan = before ++ (s, blocked) :: after ∧
      Declares c₁ s.2 blocked es₁ k c₂ ∧ e ∈ es₁ := by
  induction h with
  | nil => cases he
  | @cons c c' c'' s blocked after es es' k hs first _ ih =>
    rcases List.mem_append.mp he with he | he
    · exact ⟨[], s, blocked, after, c, es, k, c', rfl, first, he⟩
    · obtain ⟨before, r, rest⟩ := ih he
      obtain ⟨blocked', after', c₁, es₁, j, c₂, rfl, hdeclares, he⟩ := rest
      exact ⟨(s, blocked) :: before, r, blocked', after', c₁, es₁, j, c₂, rfl, hdeclares, he⟩

/-- Why an error says that something cannot be a member: a field is of the script's own type, or of one
that leads back to it, or its default cannot be read. -/
inductive Unfit (all : List Candidate) : ScriptError → Prop where
  | itself {s : Candidate} (hs : Holds all s s) : Unfit all (refusal s.2.name (itself s.2.name))
  | mutually {s d : Candidate} (hd : Holds all s d) (hback : Relation.ReflTransGen (Holds all) d s) :
    Unfit all (refusal s.2.name (mutually s.2.name d.2.name))
  | unreadable {s : Candidate} (hs : s ∈ all) {f : FieldDecl} (hf : f ∈ s.2.fields) (text : String) :
    Unfit all (refusal s.2.name (unreadable f text))

theorem Unfit.circle {all : List Candidate} {script : String} {why : ErrorKind × String}
    (h : Unfit all (refusal script why)) (hreads : ∀ f text, why ≠ Loader.unreadable f text) :
    ∃ s ∈ all, Relation.TransGen (Holds all) s s := by
  generalize he : refusal script why = e at h
  cases h with
  | itself hs => exact ⟨_, hs.1, .single hs⟩
  | @mutually s d hd hback =>
    have hcircle := Relation.TransGen.tail' hback hd
    exact ⟨d, hd.1, hcircle⟩
  | @unreadable s hs f hf text => exact absurd (refusal_inj he).2 (hreads f text)

theorem unfit_of_mem {worldType : String} {e : ScriptError}
    (he : e ∈ (built worldType scripts w).2.errors) (hkind : e.kind = .typeCannotBeMember)
    (hfunction : e.location.function = none) : Unfit (accepted w.catalogue scripts) e := by
  obtain ⟨es, fs, hs, c', made, w', hrun, hdeclares, -, hfs, -⟩ := build_spec ⟨w, []⟩ worldType scripts
  rw [show built worldType scripts w =
    (made, ⟨w', (screened w.catalogue scripts ++ es ++ fs).reverse ++ []⟩) from hrun, List.append_nil,
    List.mem_reverse] at he
  rcases List.mem_append.mp he with he | he
  · rcases List.mem_append.mp he with he | he
    · rw [screened_kind _ _ _ _ he] at hkind
      cases hkind
    · obtain ⟨before, s, blocked, after, c₁, es₁, k, c₂, hplan, hdeclared, he⟩ := hdeclares.exists_of_mem he
      have hs := accepted_of_schedule hplan
      cases hdeclared with
      | @intro es₁ ms judged =>
        rcases List.mem_append.mp he with he | he
        · obtain ⟨f, hf, ⟨names, why, hrefuse, rfl⟩ | ⟨text, rfl⟩⟩ := judged.cases_of_mem he
          · by_cases hname : f.name ∈ names
            · rw [refuseField?_of_mem hname] at hrefuse
              cases hrefuse
              cases hkind
            · rw [refuseField?_of_not_mem hname] at hrefuse
              rcases refuseField?_cases c₁ s.2.name blocked f with ⟨hself, h⟩ | ⟨-, hblocked, h⟩ |
                ⟨-, -, -, h⟩ | ⟨-, -, k, -, h | h | h⟩ <;> rw [hrefuse] at h <;> cases h
              · exact .itself ⟨hs, f, hf, hself⟩
              · obtain ⟨d, -, hname, hholds, hback⟩ := holds_of_blocked hplan hblocked
                rw [← hname]
                exact .mutually hholds hback
              all_goals cases hkind
          · exact .unreadable hs hf text
        · unfold typeOf at he
          split at he
          · cases he
          · cases List.mem_singleton.mp he
            cases hkind
  · have hsome := hfs e he
    rw [hfunction] at hsome
    cases hsome

end Rejections

theorem DeclaresAll.precedes (hc : c.Filed) (h : DeclaresAll c plan es hs c')
    (hnew : ∀ r ∈ plan, c.contains r.1.2.type = false) {type : TypeId} (htype : type ∈ plan.map (·.1.2.type)) :
    ∃ k, c'.handle? type = some k ∧ ∀ f ∈ (c'.info k).fields, c'.Precedes f.type type := by
  obtain ⟨r, hr, rfl⟩ := List.mem_map.mp htype
  have hcontains := h.contains_iff.mpr (.inr ⟨r, hr, rfl⟩)
  rw [Catalogue.contains_eq] at hcontains
  obtain ⟨k, hk⟩ := Option.isSome_iff_exists.mp hcontains
  obtain ⟨t, ht, -⟩ := (h.filed hc).indexed _ k hk
  have hle : c.infos.size ≤ k := by
    refine (h.size_le_handle hk).resolve_left fun hold => ?_
    have hnot := hnew r hr
    rw [Catalogue.contains_eq, hold] at hnot
    cases hnot
  refine ⟨k, hk, fun f hf => ?_⟩
  rw [Catalogue.info_of_getElem? ht] at hf
  obtain ⟨j, hj, hhandle⟩ := h.rising hc (rising_size c) k t hle ht f hf
  exact ⟨j, k, hhandle, hk, hj⟩

/-- Whatever circles the fields of the scripts form, each accepted script is declared once, and the fields
of the declared types have types that were registered before. -/
theorem built_precedes (hc : w.catalogue.Filed) (worldType : String) (scripts : List Script) :
    (built worldType scripts w).1.types.Perm ((accepted w.catalogue scripts).map (·.2.type)) ∧
    ∀ type ∈ (built worldType scripts w).1.types,
      ∃ t, (built worldType scripts w).2.workspace.catalogue.lookup? type = some t ∧
        ∀ f ∈ t.fields, (built worldType scripts w).2.workspace.catalogue.Precedes f.type type := by
  obtain ⟨es, fs, hs, c', made, w', hrun, hdeclares, houtfits, -, htypes⟩ :=
    build_spec ⟨w, []⟩ worldType scripts
  rw [show built worldType scripts w =
    (made, ⟨w', (screened w.catalogue scripts ++ es ++ fs).reverse ++ []⟩) from hrun]
  have htypes : made.types = (schedule w.catalogue scripts).map (·.1.2.type) := by
    rw [htypes, ← hdeclares.map_id hc]
    exact List.map_congr_left fun k _ => houtfits.id_eq k
  constructor
  · have hplan := (schedule_perm w.catalogue scripts).map (·.2.type)
    rw [List.map_map] at hplan
    rw [htypes]
    exact hplan
  · intro type htype
    rw [htypes] at htype
    have hnew : ∀ r ∈ schedule w.catalogue scripts, w.catalogue.contains r.1.2.type = false := fun r hr =>
      not_contains_of_accepted ((schedule_perm w.catalogue scripts).mem_iff.mp (List.mem_map_of_mem hr))
    obtain ⟨k, hk, hprecedes⟩ := hdeclares.precedes hc hnew htype
    refine ⟨w'.catalogue.info k, by rw [Catalogue.lookup?, houtfits.handle?_eq, hk]; rfl, fun f hf => ?_⟩
    rw [houtfits.fields_eq] at hf
    obtain ⟨j, k', hj, hk', hlt⟩ := hprecedes f hf
    exact ⟨j, k', by rw [houtfits.handle?_eq, hj], by rw [houtfits.handle?_eq, hk'], hlt⟩

theorem wellFounded_of_precedes {c : Catalogue} {types : List TypeId}
    (h : ∀ type ∈ types, ∃ t, c.lookup? type = some t ∧ ∀ f ∈ t.fields, c.Precedes f.type type) :
    WellFounded (fun part whole => whole ∈ types ∧
      ∃ t, c.lookup? whole = some t ∧ ∃ f ∈ t.fields, f.type = part) := by
  refine Subrelation.wf (r := fun a b => (c.handle? a).getD 0 < (c.handle? b).getD 0) ?_
    (measure fun id => (c.handle? id).getD 0).wf
  rintro part whole ⟨hwhole, t, ht, f, hf, rfl⟩
  obtain ⟨u, hu, hprecedes⟩ := h whole hwhole
  rw [ht] at hu
  cases hu
  obtain ⟨k, k', hk, hk', hlt⟩ := hprecedes f hf
  rw [hk, hk', Option.getD_some, Option.getD_some]
  exact hlt

/-- Two scripts each of which has a field of the other's type. -/
def ring : List Script :=
  [{ name := "A", fields := [⟨"b", "B", none⟩] }, { name := "B", fields := [⟨"a", "A", none⟩] }]

theorem filed_empty : ({} : Workspace).catalogue.Filed := by
  constructor
  · intro k t ht
    cases ht
  · intro id k hk
    simp [Catalogue.handle?, Workspace.catalogue] at hk

theorem accepted_ring : accepted ({} : Workspace).catalogue ring = numbered ring := by
  simp [accepted, numbered, ring, screen, Catalogue.contains, Workspace.catalogue]

end Loader

end Flowscript

/-! ## Types that are said to be missing

A script on a circle is declared before the scripts it waits for. A field of it may name one that does
not lead back, which is then reported as not registered although it is declared later.
-/
namespace Flowscript.Loader

variable {c : Catalogue} {s d : Candidate} {blocked : List String}
  {before after : List (Candidate × List String)} {scripts : List Script} {w : Workspace}

theorem leadsTo_of_perm {now now' : List Candidate} (hnow : Apart now) (hnow' : Apart now')
    (hperm : now.Perm now') (h : LeadsTo (waitsOn now) d s) : LeadsTo (waitsOn now') d s := by
  induction h with
  | refl => exact .refl
  | tail _ hstep ih =>
    obtain ⟨hmem, hfield⟩ := (mem_waitsOn_iff hnow).mp hstep
    exact ih.tail ((mem_waitsOn_iff hnow').mpr ⟨hperm.mem_iff.mp hmem, hfield⟩)

/-- The scripts that are pending in a round lead back to its script. -/
def LeadsBack (s : Candidate) (after : List (Candidate × List String)) (name : String) : Prop :=
  ∃ r ∈ after, r.1.2.name = name ∧ LeadsTo (waitsOn (s :: after.map (·.1))) r.1 s

theorem mem_blocked_iff_leadsBack (hplan : schedule c scripts = before ++ (s, blocked) :: after)
    {f : FieldDecl} (hf : f ∈ s.2.fields) (hself : f.type ≠ s.2.name) :
    f.type ∈ blocked ↔ LeadsBack s after f.type := by
  have hapart := apart_screen c scripts
  obtain ⟨now, first, hsub, hfirst, hchoose, hperm⟩ := pending_of_rounds hapart le_rfl hplan
  have hnow := hapart.sublist hsub
  have hnow' : Apart (s :: after.map (·.1)) :=
    ⟨(hperm.map (·.1)).nodup_iff.mpr hnow.positions, (hperm.map (·.2.name)).nodup_iff.mpr hnow.names⟩
  rw [mem_blocked_iff hnow hfirst hchoose]
  constructor
  · rintro ⟨d, hd, hname, hleads⟩
    obtain ⟨hmem, hne, -⟩ := (mem_waitsOn_iff hnow).mp hd
    have hmem := hperm.mem_iff.mpr hmem
    rcases List.mem_cons.mp hmem with rfl | hmem
    · exact absurd rfl hne
    · obtain ⟨r, hr, rfl⟩ := List.mem_map.mp hmem
      exact ⟨r, hr, hname, leadsTo_of_perm hnow hnow' hperm.symm hleads⟩
  · rintro ⟨r, hr, hname, hleads⟩
    have hmem := hperm.mem_iff.mp (List.mem_cons_of_mem s (List.mem_map_of_mem hr))
    refine ⟨r.1, (mem_waitsOn_iff hnow).mpr ⟨hmem, fun he => ?_, f, hf, hname.symm⟩, hname,
      leadsTo_of_perm hnow' hnow hperm hleads⟩
    have hsame := hnow.eq_of_position hmem (hperm.mem_iff.mp List.mem_cons_self) he
    rw [hsame] at hname
    exact hself hname.symm

/-- The type of a field is reported as not registered exactly if it was not known before, no script
declared earlier gives it, and no script declared later gives it and leads back. -/
theorem unregistered_mem_iff (hc : w.catalogue.Filed) (worldType : String)
    (hplan : schedule w.catalogue scripts = before ++ (s, blocked) :: after) (type : String) :
    refusal s.2.name (unregistered type) ∈ (built worldType scripts w).2.errors ↔
      (∃ f, s.2.fields.find? (·.name == f.name) = some f ∧ f.type = type) ∧ type ≠ s.2.name ∧
        w.catalogue.handleNamed? type = none ∧ ¬ Gives before type ∧ ¬ LeadsBack s after type := by
  obtain ⟨c, es, ms, -, hknown, judged, herrors, -, -⟩ := built_round hc worldType hplan
  have hoverflow : refusal s.2.name (unregistered type) ∉ (typeOf c s.2.name ms).2 := by
    unfold typeOf
    split
    · exact List.not_mem_nil
    · intro he
      cases congrArg Prod.fst (refusal_inj (List.mem_singleton.mp he)).2
  have hfresh : Gives before type → w.catalogue.contains (.ofName type) = false := by
    rintro ⟨r, hfind, -⟩
    have htype : r.1.2.type = .ofName type := by simpa using List.find?_some hfind
    obtain ⟨earlier, later, hbefore⟩ := List.append_of_mem (List.mem_of_find?_eq_some hfind)
    rw [hbefore, List.append_assoc] at hplan
    rw [← htype]
    exact not_contains_of_accepted (accepted_of_schedule hplan)
  have hgives : (w.catalogue.contains (.ofName type) = true ∨ ¬ Gives before type) ↔ ¬ Gives before type := by
    refine ⟨fun h hgives => ?_, .inr⟩
    rcases h with h | h
    · rw [hfresh hgives] at h
      cases h
    · exact h hgives
  have hkind : (unregistered type).1 ≠ .nameNotUnique := by simp [unregistered]
  have hreads : ∀ g text, unregistered type ≠ unreadable g text := by
    intro g text he
    cases congrArg Prod.fst he
  rw [herrors _ hkind, List.mem_append, or_iff_left hoverflow, judged.refusal_mem_iff hkind hreads]
  simp only [refuse_unregistered_iff, hknown, hgives]
  constructor
  · rintro ⟨f, hfind, -, rfl, hself, hblocked, hnone, hnot⟩
    have hf := List.mem_of_find?_eq_some hfind
    exact ⟨⟨f, hfind, rfl⟩, hself, hnone, hnot,
      fun hback => hblocked ((mem_blocked_iff_leadsBack hplan hf hself).mpr hback)⟩
  · rintro ⟨⟨f, hfind, rfl⟩, hself, hnone, hnot, hback⟩
    have hf := List.mem_of_find?_eq_some hfind
    exact ⟨f, hfind, List.not_mem_nil, rfl, hself,
      fun hblocked => hback ((mem_blocked_iff_leadsBack hplan hf hself).mp hblocked), hnone, hnot⟩

/-- The errors call types not registered only where they are missing. -/
def OnlyMissing (worldType : String) (scripts : List Script) (w : Workspace) : Prop :=
  ∀ s ∈ accepted w.catalogue scripts, ∀ type,
    refusal s.2.name (unregistered type) ∈ (built worldType scripts w).2.errors →
      w.catalogue.handleNamed? type = none ∧ ∀ d ∈ accepted w.catalogue scripts, d.2.name ≠ type

/-- Each script is declared after the scripts that its fields name, but for those that lead back, and
these have identities of their own. -/
def InOrder (c : Catalogue) (scripts : List Script) : Prop :=
  ∀ before s blocked after, schedule c scripts = before ++ (s, blocked) :: after →
    ∀ f, s.2.fields.find? (·.name == f.name) = some f → f.type ≠ s.2.name →
      ∀ d ∈ accepted c scripts, d.2.name = f.type → Gives before f.type ∨ LeadsBack s after f.type

theorem onlyMissing_iff (hc : w.catalogue.Filed) (worldType : String) (scripts : List Script) :
    OnlyMissing worldType scripts w ↔ InOrder w.catalogue scripts := by
  constructor
  · intro h before s blocked after hplan f hfind hself d hd hname
    by_contra hnot
    obtain ⟨hgives, hback⟩ := not_or.mp hnot
    have hnone : w.catalogue.handleNamed? f.type = none := by
      rw [Catalogue.handleNamed?, ← hname, show TypeId.ofName d.2.name = d.2.type from rfl, handle?_of_accepted hd]
      rfl
    have hmem := (unregistered_mem_iff hc worldType hplan f.type).mpr
      ⟨⟨f, hfind, rfl⟩, hself, hnone, hgives, hback⟩
    exact (h s (accepted_of_schedule hplan) f.type hmem).2 d hd hname
  · intro h s hs type hmem
    obtain ⟨before, blocked, after, hplan⟩ := exists_round hs
    obtain ⟨⟨f, hfind, rfl⟩, hself, hnone, hgives, hback⟩ :=
      (unregistered_mem_iff hc worldType hplan type).mp hmem
    refine ⟨hnone, fun d hd hname => ?_⟩
    rcases h before s blocked after hplan f hfind hself d hd hname with hgiven | hleads
    · exact hgives hgiven
    · exact hback hleads

theorem field_or_excuse (hc : w.catalogue.Filed) (worldType : String)
    (hs : s ∈ accepted w.catalogue scripts) {t : TypeInfo}
    (ht : (built worldType scripts w).2.workspace.catalogue.lookupName? s.2.name = some t)
    {f : FieldDecl} (hf : f ∈ s.2.fields) :
    (∃ g ∈ t.fields, g.name = f.name ∧ g.type = .ofName f.type) ∨
      ∃ why, Excuse s.2.name f why ∧ refusal s.2.name why ∈ (built worldType scripts w).2.errors := by
  obtain ⟨before, blocked, after, hplan⟩ := exists_round hs
  obtain ⟨c, es, ms, hfiled, -, judged, herrors, hall, hfields⟩ := built_round hc worldType hplan
  rw [hfields t ht]
  rcases judged.kept_or_refused hf with ⟨m, hm, hname, htype⟩ | ⟨why, hexcuse, he⟩
  · have hid := hfiled.info_id (Catalogue.handle?_of_handleNamed? htype)
    rcases field_of_member c s.2.name hm with ⟨g, hg, hgname, hgtype⟩ | hoverflow
    · exact .inl ⟨g, hg, hgname.trans hname, hgtype.trans hid⟩
    · refine .inr ⟨_, .overflow, (herrors _ (by simp [overflow])).mpr ?_⟩
      rw [hoverflow]
      exact List.mem_append_right _ (List.mem_singleton_self _)
  · exact .inr ⟨why, hexcuse, hall _ he⟩

/-- Types are called not registered only where they are missing exactly if the scripts come in order; and
each field of a script becomes a field of its type, or an error says why it does not. -/
theorem load_onlyMissing_iff (hc : w.catalogue.Filed) (l : Loader) (scripts : List Script) :
    let c := (l.unload w).2.catalogue
    let b := built l.worldType scripts (l.unload w).2
    (∀ r ∈ (l.load scripts w).1, r.errors = b.2.errors.reverse) ∧
    (OnlyMissing l.worldType scripts (l.unload w).2 ↔ InOrder c scripts) ∧
    ∀ s ∈ accepted c scripts, ∀ t, (l.load scripts w).2.2.catalogue.lookupName? s.2.name = some t →
      ∀ f ∈ s.2.fields, (∃ g ∈ t.fields, g.name = f.name ∧ g.type = .ofName f.type) ∨
        ∃ why, Excuse s.2.name f why ∧ refusal s.2.name why ∈ b.2.errors := by
  obtain ⟨hreport, hcatalogue⟩ := load_built l scripts w
  have hfiled := filed_unload l hc
  dsimp only
  rw [hcatalogue]
  exact ⟨fun r hr => (hreport r hr).1, onlyMissing_iff hfiled l.worldType scripts,
    fun s hs t ht f hf => field_or_excuse hfiled l.worldType hs ht hf⟩

/-- Two circles, the first of which waits for the second. -/
def tangle : List Script :=
  [{ name := "A", fields := [⟨"b", "B", none⟩, ⟨"c", "C", none⟩] },
    { name := "B", fields := [⟨"a", "A", none⟩] },
    { name := "C", fields := [⟨"d", "D", none⟩] },
    { name := "D", fields := [⟨"c", "C", none⟩] }]

theorem accepted_tangle : accepted ({} : Workspace).catalogue tangle = numbered tangle := by
  simp [accepted, numbered, tangle, screen, Catalogue.contains, Workspace.catalogue]

/-- The script `A` is declared first, and must do without `B`. -/
theorem schedule_tangle : ∃ after, schedule ({} : Workspace).catalogue tangle =
    [] ++ ((0, { name := "A", fields := [⟨"b", "B", none⟩, ⟨"c", "C", none⟩] }), ["B"]) :: after := by
  rw [schedule, accepted_tangle]
  exact ⟨_, rfl⟩

/-- The type `C` is called not registered, though it is declared. -/
theorem tangle_not_onlyMissing : ¬ OnlyMissing "World" tangle {} := by
  intro h
  have horder := (load_onlyMissing_iff filed_empty { worldType := "World" } tangle).2.1.mp h
  obtain ⟨after, hplan⟩ := schedule_tangle
  have hself : "C" ≠ "A" := by decide
  have hd : ((2, { name := "C", fields := [⟨"d", "D", none⟩] }) : Candidate) ∈
      accepted ({} : Workspace).catalogue tangle := by
    rw [accepted_tangle]
    exact List.mem_cons_of_mem _ (List.mem_cons_of_mem _ List.mem_cons_self)
  rcases horder [] _ _ after hplan ⟨"c", "C", none⟩ rfl hself _ hd rfl with ⟨r, hfind, -⟩ | hback
  · cases hfind
  · have hf : (⟨"c", "C", none⟩ : FieldDecl) ∈ [⟨"b", "B", none⟩, ⟨"c", "C", none⟩] :=
      List.mem_cons_of_mem _ List.mem_cons_self
    have hblocked := (mem_blocked_iff_leadsBack hplan hf hself).mpr hback
    simp at hblocked

end Flowscript.Loader
