import Flowscript.Proofs.Loading.FunctionDeclaration

/-! # The types of scripts

A script is told from the others by its name, a type by the hash of its name. Scripts whose names have
different hashes each get a type of their own, with those of their fields that are not refused and with
their functions. Of two scripts whose names have one hash the second is declared on the type of the first.
-/
namespace Flowscript

namespace Loader

variable {c c' : Catalogue} {scripts : List Script} {w : Workspace} {worldType : String}

inductive Divides (script : String) : List FieldDecl → List FieldDecl → List ScriptError → Prop where
  | nil : Divides script [] [] []
  | kept {f : FieldDecl} {fields kept : List FieldDecl} {es : List ScriptError} (rest : Divides script fields kept es) :
    Divides script (f :: fields) (f :: kept) es
  | refused {f : FieldDecl} {why : ErrorKind × String} {fields kept : List FieldDecl} {es : List ScriptError}
    (excuse : Excuse script f why) (rest : Divides script fields kept es) :
    Divides script (f :: fields) kept (refusal script why :: es)

theorem JudgedAll.divides (hc : c.Filed) {script : String} {blocked names : List String} {fields : List FieldDecl}
    {es : List ScriptError} {ms : List Member} (h : JudgedAll c script blocked names fields es ms) :
    ∃ kept, Divides script fields kept es ∧
      (ms.map fun m => (m.name, (c.info m.type).id)) = kept.map fun f => (f.name, TypeId.ofName f.type) := by
  induction h with
  | nil => exact ⟨[], .nil, rfl⟩
  | @cons names f fields es es' m ms first _ ih =>
    obtain ⟨kept, hdivides, hmembers⟩ := ih
    cases first with
    | refused hrefuse => exact ⟨kept, .refused (excuse_of_refuseField? hrefuse) hdivides, hmembers⟩
    | unreadable _ _ text => exact ⟨kept, .refused (.unreadable text) hdivides, hmembers⟩
    | @kept type hrefuse =>
      refine ⟨f :: kept, .kept hdivides, ?_⟩
      obtain ⟨hhandle, -⟩ := Option.filter_eq_some_iff.mp (handleNamed?_of_refuseField? hrefuse)
      rw [List.map_cons, ← hmembers, ← hc.info_id hhandle]
      rfl

/-- The type has just the fields that are kept, unless they are too large together. -/
def HasFields (t : TypeInfo) (s : Script) (errors : List ScriptError) : Prop :=
  ∃ kept es, Divides s.name s.fields kept es ∧ es.Sublist errors ∧
    ((t.fields.map fun f => (f.name, f.type)) = kept.map (fun f => (f.name, TypeId.ofName f.type)) ∨
      t.fields = [] ∧ refusal s.name (overflow s.name) ∈ errors)

/-- The type was declared by a script, and by no other. -/
structure TypeOf (worldType : String) (s : Script) (errors : List ScriptError) (t : TypeInfo) : Prop where
  name : t.name = s.name
  source : t.source = .script s.name
  fields : HasFields t s errors
  /-- Functions are generated for the fields or declared by the script. -/
  functions : ∀ entry ∈ t.functions, ∀ f ∈ entry.2,
    (∃ op whole, f.body = .aggregate op whole ∧ whole.type = s.type) ∨
      ∃ g ∈ s.functions, ∃ n, f = functionOf worldType s.type g n

section Screen

def nameTaken (s : Script) : ScriptError :=
  refusal s.name (.nameNotUnique, s!"type name `{s.name}` is already in use")

theorem screen_cases (c : Catalogue) (names : List String) {candidates : List Candidate} {s : Candidate}
    (hs : s ∈ candidates) :
    s ∈ (screen c names candidates).1 ∨ nameTaken s.2 ∈ (screen c names candidates).2 := by
  induction candidates generalizing names with
  | nil => cases hs
  | cons first rest ih =>
    simp only [screen]
    rcases List.mem_cons.mp hs with rfl | hs
    · split
      · exact .inr List.mem_cons_self
      · exact .inl List.mem_cons_self
    · refine (ih (first.2.name :: names) hs).imp (fun h => ?_) fun h => ?_
      · split
        · exact h
        · exact List.mem_cons_of_mem _ h
      · split
        · exact List.mem_cons_of_mem _ h
        · exact h

end Screen

section Handles

variable {plan : List (Candidate × List String)} {es : List ScriptError} {hs : List Handle}

theorem DeclaresAll.handles (h : DeclaresAll c plan es hs c') :
    List.Forall₂ (fun r k => c'.handle? r.1.2.type = some k) plan hs := by
  induction h with
  | nil => exact .nil
  | cons first rest ih => exact .cons (rest.grows.handle _ _ first.handle?_type) ih

theorem lookup_handlesOf (h : DeclaresAll c (schedule c scripts) es hs c') {d : Candidate}
    (hd : d ∈ numbered scripts) {k : Handle} (hk : (handlesOf (schedule c scripts) hs).lookup d.1 = some k) :
    d ∈ accepted c scripts ∧ c'.handle? d.2.type = some k := by
  obtain ⟨before, after, hsplit, -⟩ := List.lookup_eq_some_iff.mp hk
  have hmem : (d.1, k) ∈ handlesOf (schedule c scripts) hs := by
    rw [hsplit]
    exact List.mem_append_right _ List.mem_cons_self
  rw [handlesOf, List.zip_map_left] at hmem
  obtain ⟨⟨r, k'⟩, hr, heq⟩ := List.mem_map.mp hmem
  obtain ⟨hposition, rfl⟩ := Prod.mk.inj heq
  have haccepted : r.1 ∈ accepted c scripts :=
    (schedule_perm c scripts).mem_iff.mp (List.mem_map_of_mem (List.of_mem_zip hr).1)
  have hsame : r.1 = d :=
    List.inj_on_of_nodup_map (nodup_numbered scripts) (mem_accepted_numbered haccepted) hd hposition
  subst hsame
  exact ⟨haccepted, List.forall₂_zip h.handles hr⟩

theorem piece_of_mem (h : DeclaresAll c (schedule c scripts) es hs c') {p : Piece}
    (hp : p ∈ allPieces c scripts hs) :
    ∃ s ∈ accepted c scripts, p.script = s.2 ∧ c'.handle? s.2.type = some p.handle ∧
      p.graph ∈ s.2.functions := by
  obtain ⟨d, hd, hscript, hlookup, hg⟩ := mem_pieces hp
  obtain ⟨haccepted, hhandle⟩ := lookup_handlesOf h hd hlookup
  exact ⟨d, haccepted, hscript, hhandle, hg⟩

end Handles

theorem source_typeOf (c : Catalogue) (script : String) (ms : List Member) :
    (typeOf c script ms).1.source = .script script := by
  have hinfo : ∀ layout parts, (Aggregate.info c script layout parts).source = .script script := by
    intro layout parts
    rw [Aggregate.info, TypeInfo.addFunctions_eq]
  unfold typeOf
  split <;> exact hinfo _ _

theorem fields_typeOf (c : Catalogue) (script : String) (ms : List Member) :
    ((typeOf c script ms).1.fields.map fun f => (f.name, f.type)) =
        ms.map (fun m => (m.name, (c.info m.type).id)) ∨
      (typeOf c script ms).1.fields = [] ∧ (typeOf c script ms).2 = [refusal script (overflow script)] := by
  unfold typeOf
  cases hplace : Aggregate.place? c ms with
  | some placed =>
    refine .inl ?_
    have hparts := congrArg (List.map fun p : String × Handle => (p.1, (c.info p.2).id)) (Aggregate.map_parts hplace)
    rw [List.map_map, List.map_map] at hparts
    rw [(Aggregate.info_eq ..).2.2.2, List.map_map]
    exact hparts
  | none =>
    refine .inr ⟨?_, rfl⟩
    rw [(Aggregate.info_eq ..).2.2.2]
    rfl

/-- A script with whose identity nothing was declared before gets a type of its own. -/
theorem DeclaresAll.exists_type {before after : List (Candidate × List String)} {s : Candidate}
    {blocked : List String} {es : List ScriptError} {hs : List Handle} (hc : c.Filed)
    (h : DeclaresAll c (before ++ (s, blocked) :: after) es hs c') (hold : c.contains s.2.type = false)
    (hbefore : ∀ r ∈ before, r.1.2.type ≠ s.2.type) :
    ∃ c₁ fs ms j heirs, c₁.Filed ∧ JudgedAll c₁ s.2.name blocked [] s.2.fields fs ms ∧
      (fs ++ (typeOf c₁ s.2.name ms).2).Sublist es ∧ c'.handle? s.2.type = some j ∧
      c'.info j = Catalogue.withHeirs heirs (typeOf c₁ s.2.name ms).1 := by
  obtain ⟨c₁, c₂, es₁, es₂, es₃, hs₁, j, hs₃, hfirst, hdeclared, hafter, rfl, -⟩ := h.split
  have hfresh : c₁.handle? s.2.type = none := by
    rw [← Option.not_isSome_iff_eq_none, ← Catalogue.contains_eq, hfirst.contains_iff, hold]
    rintro (hfalse | ⟨r, hr, hsame⟩)
    · cases hfalse
    · exact hbefore r hr hsame.symm
  have hhandle := hafter.grows.handle _ _ hdeclared.handle?_type
  cases hdeclared with
  | @intro fs ms judged =>
    obtain ⟨hid, -, hbases⟩ := typeOf_eq c₁ s.2.name ms
    have hregister := Catalogue.register_of_fresh hbases (by rw [hid]; exact hfresh)
    refine ⟨c₁, fs, ms, _, (c₁.grow (typeOf c₁ s.2.name ms).1).heirs (typeOf c₁ s.2.name ms).1.id,
      hfirst.filed hc,
      judged, (List.sublist_append_right _ _).trans (List.sublist_append_left _ _), hhandle,
      Catalogue.info_of_getElem? (hafter.grows.info _ _ ?_)⟩
    rw [hregister]
    exact Array.getElem?_push_size

variable {es : List ScriptError} {hs : List Handle} {k : Context}

theorem Builds.info_eq (h : Builds worldType scripts w es hs c k) {j : Handle} (hj : j < c.infos.size) :
    (built worldType scripts w).2.workspace.catalogue.info j = (c.info j).addFunctions
      ((((allPieces w.catalogue scripts hs).zipIdx w.context.bodies.size).filter (·.1.handle == j)).map
        fun q => q.1.function worldType c q.2) := by
  rw [Workspace.catalogue, h.context]
  dsimp only
  rw [h.furnished.catalogue]
  exact info_furnish hj _

theorem Builds.handle?_eq (h : Builds worldType scripts w es hs c k) (id : TypeId) :
    (built worldType scripts w).2.workspace.catalogue.handle? id = c.handle? id := by
  rw [Workspace.catalogue, h.context]
  exact h.furnished.outfits.handle?_eq id

theorem Builds.filed (hc : w.catalogue.Filed) (h : Builds worldType scripts w es hs c k) : c.Filed :=
  h.declares.filed hc

theorem Builds.function_of_mem (hc : w.catalogue.Filed) (h : Builds worldType scripts w es hs c k) {j : Handle}
    {s : Candidate} (hj : c.handle? s.2.type = some j) {q : Piece × Nat}
    (hq : q ∈ (allPieces w.catalogue scripts hs).zipIdx w.context.bodies.size) (hthis : q.1.handle = j) :
    ∃ d ∈ accepted w.catalogue scripts, d.2.type = s.2.type ∧ ∃ g ∈ d.2.functions,
      q.1.function worldType c q.2 = functionOf worldType s.2.type g q.2 := by
  obtain ⟨d, hd, -, hhandle, hg⟩ := piece_of_mem h.declares (List.fst_mem_of_mem_zipIdx hq)
  rw [hthis] at hhandle
  have hid := (h.filed hc).info_id hj
  refine ⟨d, hd, by rw [← (h.filed hc).info_id hhandle, hid], _, hg, ?_⟩
  rw [Piece.function, hthis, hid]

theorem Builds.exists_typeOf (hc : w.catalogue.Filed) (h : Builds worldType scripts w es hs c k)
    (hapart : ((accepted w.catalogue scripts).map (·.2.type)).Nodup) {i : Nat} {s : Script}
    (hs : (i, s) ∈ accepted w.catalogue scripts) :
    ∃ t, (built worldType scripts w).2.workspace.catalogue.lookupName? s.name = some t ∧
      TypeOf worldType s (built worldType scripts w).2.errors.reverse t := by
  obtain ⟨before, blocked, after, hplan⟩ := exists_round hs
  have hdeclares := h.declares
  rw [hplan] at hdeclares
  have hbefore : ∀ r ∈ before, r.1.2.type ≠ s.type := fun r hr => by
    have hnodup := ((schedule_perm w.catalogue scripts).map (·.2.type)).nodup_iff.mpr hapart
    rw [hplan, List.map_map, List.map_append, List.nodup_append] at hnodup
    exact hnodup.2.2 _ (List.mem_map_of_mem hr) _ (List.mem_map_of_mem List.mem_cons_self)
  obtain ⟨c₁, fs, ms, j, heirs, hfiled, judged, hsub, hhandle, hinfo⟩ :=
    hdeclares.exists_type hc (not_contains_of_accepted hs) hbefore
  have htype := h.info_eq ((h.filed hc).lt_size hhandle)
  rw [hinfo, Catalogue.withHeirs_eq] at htype
  have hface := htype
  rw [TypeInfo.addFunctions_eq] at hface
  have hname : (typeOf c₁ s.name ms).1.name = s.name := (typeOf_eq c₁ s.name ms).2.1
  have herrors : (fs ++ (typeOf c₁ s.name ms).2).Sublist (built worldType scripts w).2.errors.reverse := by
    rw [h.errors]
    exact hsub.trans ((List.sublist_append_right _ _).trans
      ((List.sublist_append_left _ _).trans (List.sublist_append_left _ _)))
  refine ⟨(built worldType scripts w).2.workspace.catalogue.info j, ?_, ?_⟩
  · rw [Catalogue.lookupName?, Catalogue.handleNamed?, h.handle?_eq,
      show c.handle? (.ofName s.name) = some j from hhandle, Option.filter_some, if_pos, Option.map_some]
    rw [hface]
    exact beq_iff_eq.mpr hname
  · obtain ⟨kept, hdivides, hmembers⟩ := judged.divides hfiled
    refine ⟨?_, ?_, ⟨kept, fs, hdivides, (List.sublist_append_left _ _).trans herrors, ?_⟩, ?_⟩
    · rw [hface]
      exact hname
    · rw [hface]
      exact source_typeOf c₁ s.name ms
    · rw [hface, ← hmembers]
      refine (fields_typeOf c₁ s.name ms).imp_right (And.imp_right fun hoverflow => ?_)
      rw [hoverflow] at herrors
      exact herrors.subset (List.mem_append_right _ (List.mem_singleton_self _))
    · intro entry hentry f hf
      rw [htype] at hentry
      rcases TypeInfo.mem_functions_addFunctions hentry hf with hf | ⟨entry', hentry', hf⟩
      · obtain ⟨q, hq, rfl⟩ := List.mem_map.mp hf
        obtain ⟨hmem, hthis⟩ := List.mem_filter.mp hq
        obtain ⟨d, hd, hsame, g, hg, heq⟩ := h.function_of_mem hc hhandle hmem (beq_iff_eq.mp hthis)
        cases List.inj_on_of_nodup_map hapart hd hs hsame
        exact .inr ⟨g, hg, q.2, heq⟩
      · exact .inl (body_of_mem_typeOf hentry' hf)

/-- After loading, each script was refused its name or has a type of its own, and no type is listed twice,
just if the scripts that could use their names have names of different hashes. -/
theorem load_individual_iff {l : Loader} (hc : w.catalogue.Filed) {r : LoadReport}
    (hr : (l.load scripts w).1 = some r) :
    ((∀ s ∈ scripts, nameTaken s ∈ r.errors ∨
      ∃ t, (l.load scripts w).2.2.catalogue.lookupName? s.name = some t ∧ TypeOf l.worldType s r.errors t) ∧
        r.types.Nodup) ↔
      ((accepted (l.unload w).2.catalogue scripts).map (·.2.type)).Nodup := by
  obtain ⟨hreport, hcatalogue⟩ := load_built l scripts w
  obtain ⟨herrors, htypes⟩ := hreport r hr
  have hfiled := filed_unload l hc
  obtain ⟨es, hs, c, k, h⟩ := exists_builds l.worldType scripts (l.unload w).2
  have hnodup : r.types.Nodup ↔ ((accepted (l.unload w).2.catalogue scripts).map (·.2.type)).Nodup := by
    have hperm := (schedule_perm (l.unload w).2.catalogue scripts).map (·.2.type)
    rw [List.map_map] at hperm
    rw [htypes, h.types_eq hfiled]
    exact hperm.nodup_iff
  rw [hnodup, hcatalogue, herrors]
  refine ⟨fun hall => hall.2, fun hapart => ⟨fun s hs => ?_, hapart⟩⟩
  obtain ⟨i, hi⟩ := mem_numbered hs
  rcases screen_cases (l.unload w).2.catalogue [] hi with haccepted | htaken
  · exact .inr (h.exists_typeOf hfiled hapart haccepted)
  · rw [h.errors]
    exact .inl (List.mem_append_left _ (List.mem_append_left _ (List.mem_append_left _ htaken)))

def twins : List Script := [{ name := "costarring" }, { name := "liquid" }]

/-- Neither is refused, but they do not both get a type of their own. -/
theorem twins_not_individual :
    let l : Loader := { worldType := "World" }
    ∃ r, (l.load twins {}).1 = some r ∧
      ¬ ((∀ s ∈ twins, nameTaken s ∈ r.errors ∨
        ∃ t, (l.load twins {}).2.2.catalogue.lookupName? s.name = some t ∧ TypeOf l.worldType s r.errors t) ∧
          r.types.Nodup) := by
  intro l
  obtain ⟨r, hr⟩ := Option.isSome_iff_exists.mp
    (isSome_load_of_functions (show ∀ s ∈ twins, s.functions = [] by decide) {} (l := l))
  have haccepted : accepted (l.unload {}).2.catalogue twins = numbered twins := by
    rw [Workspace.catalogue, unload_context]
    simp [accepted, numbered, twins, screen, Catalogue.contains, Workspace.catalogue, l, removeTypes]
  refine ⟨r, hr, fun hall => ?_⟩
  have hnodup := (load_individual_iff filed_empty hr).mp hall
  rw [haccepted] at hnodup
  exact absurd hnodup (by decide +kernel)

end Loader

end Flowscript
