import Flowscript.Proofs.Loading.RefusedFields

/-! # Plans of declarations

What comes of declaring scripts one after another: which names are known in each round, what the errors
of one script say, and which fields a declared type has.
-/
namespace Flowscript

namespace Layout

variable {whole whole' l : Layout} {ls : List Layout} {offset : Nat} {offsets : List Nat}

/-- What is placed next starts at the next multiple of its alignment, and the whole ends with it, if that is not too
large even when it is padded. -/
theorem extend?_eq_some_iff : whole.extend? l = some (whole', offset) ↔
    offset = roundUp whole.size l.align ∧ whole' = ⟨offset + l.size, max whole.align l.align⟩ ∧
      isPowerOfTwo (max whole.align l.align) = true ∧
      roundUp (offset + l.size) (max whole.align l.align) ≤ maxSize := by
  simp only [extend?, ofSizeAlign?, Option.map_eq_some_iff, Option.ite_none_right_eq_some, Bool.and_eq_true,
    decide_eq_true_eq, Option.some.injEq, Prod.mk.injEq]
  constructor
  · rintro ⟨larger, ⟨⟨hpower, hsize⟩, rfl⟩, rfl, rfl⟩
    exact ⟨rfl, rfl, hpower, hsize⟩
  · rintro ⟨rfl, rfl, hpower, hsize⟩
    exact ⟨_, ⟨⟨hpower, hsize⟩, rfl⟩, rfl, rfl⟩

theorem go_cons_eq_some_iff : place?.go whole (l :: ls) = some (whole', offsets) ↔
    ∃ larger offset rest, whole.extend? l = some (larger, offset) ∧ place?.go larger ls = some (whole', rest) ∧
      offsets = offset :: rest := by
  rw [place?.go]
  simp only [Option.bind_eq_bind, Option.bind_eq_some_iff, Option.some.injEq, Prod.mk.injEq]
  constructor
  · rintro ⟨⟨larger, offset⟩, hextend, ⟨_, rest⟩, hrest, rfl, rfl⟩
    exact ⟨larger, offset, rest, hextend, hrest, rfl⟩
  · rintro ⟨larger, offset, rest, hextend, hrest, rfl⟩
    exact ⟨(larger, offset), hextend, (whole', rest), hrest, rfl, rfl⟩

theorem length_place (h : place?.go whole ls = some (whole', offsets)) : offsets.length = ls.length := by
  induction ls generalizing whole offsets with
  | nil =>
    cases h
    rfl
  | cons l ls ih =>
    obtain ⟨larger, offset, rest, -, hrest, rfl⟩ := go_cons_eq_some_iff.mp h
    rw [List.length_cons, List.length_cons, ih hrest]

end Layout

namespace Aggregate

variable {c : Catalogue} {members : List Member} {layout : Layout} {parts : List Part}

theorem map_parts (h : place? c members = some (layout, parts)) :
    (parts.map fun p => (p.name, p.type)) = members.map fun m => (m.name, m.type) := by
  simp only [place?, Layout.place?, Option.map_eq_some_iff, Prod.mk.injEq] at h
  obtain ⟨⟨_, offsets'⟩, ⟨⟨_, offsets⟩, hgo, hwhole⟩, -, rfl⟩ := h
  cases hwhole
  have hlength := Layout.length_place hgo
  rw [List.length_map] at hlength
  have hzip := congrArg (List.map fun m => (m.name, m.type)) (List.map_fst_zip hlength.ge)
  rw [List.map_map] at hzip ⊢
  exact hzip

theorem info_eq (c : Catalogue) (script : String) (layout : Layout) (parts : List Part) :
    (info c script layout parts).id = .ofName script ∧ (info c script layout parts).name = script ∧
      (info c script layout parts).bases = [] ∧
      (info c script layout parts).fields = parts.map fun p => ⟨p.name, (c.info p.type).id, p.offset⟩ := by
  rw [info, TypeInfo.addFunctions_eq]
  exact ⟨rfl, rfl, rfl, rfl⟩

end Aggregate

namespace Loader

variable {c c' : Catalogue} {s : Candidate} {blocked : List String}
  {plan before after : List (Candidate × List String)} {es : List ScriptError} {hs : List Handle}

section TypeOf

variable {script : String} {ms : List Member}

theorem typeOf_eq (c : Catalogue) (script : String) (ms : List Member) :
    (typeOf c script ms).1.id = .ofName script ∧ (typeOf c script ms).1.name = script ∧
      (typeOf c script ms).1.bases = [] := by
  unfold typeOf
  split <;> exact ⟨(Aggregate.info_eq ..).1, (Aggregate.info_eq ..).2.1, (Aggregate.info_eq ..).2.2.1⟩

theorem member_of_typeOf {f : FieldInfo} (hf : f ∈ (typeOf c script ms).1.fields) :
    ∃ m ∈ ms, f.name = m.name ∧ f.type = (c.info m.type).id := by
  unfold typeOf at hf
  split at hf
  · next layout parts hplace =>
    rw [(Aggregate.info_eq ..).2.2.2] at hf
    obtain ⟨p, hp, rfl⟩ := List.mem_map.mp hf
    have hface : (p.name, p.type) ∈ parts.map fun p => (p.name, p.type) := List.mem_map_of_mem hp
    rw [Aggregate.map_parts hplace] at hface
    obtain ⟨m, hm, heq⟩ := List.mem_map.mp hface
    obtain ⟨hname, htype⟩ := Prod.mk.inj heq
    exact ⟨m, hm, hname.symm, by rw [htype]⟩
  · rw [(Aggregate.info_eq ..).2.2.2] at hf
    cases hf

/-- Each member is a field of the type, unless the layout is too large. -/
theorem field_of_member (c : Catalogue) (script : String) {m : Member} (hm : m ∈ ms) :
    (∃ f ∈ (typeOf c script ms).1.fields, f.name = m.name ∧ f.type = (c.info m.type).id) ∨
      (typeOf c script ms).2 = [refusal script (overflow script)] := by
  unfold typeOf
  split
  · next layout parts hplace =>
    refine .inl ?_
    have hface : (m.name, m.type) ∈ ms.map fun m => (m.name, m.type) := List.mem_map_of_mem hm
    rw [← Aggregate.map_parts hplace] at hface
    obtain ⟨p, hp, heq⟩ := List.mem_map.mp hface
    obtain ⟨hname, htype⟩ := Prod.mk.inj heq
    rw [(Aggregate.info_eq ..).2.2.2]
    exact ⟨_, List.mem_map_of_mem hp, hname, by rw [htype]⟩
  · exact .inr rfl

end TypeOf

namespace Declares

variable {s : Script} {h : Handle}

theorem handle?_eq (hd : Declares c s blocked es h c') (id : TypeId) :
    c'.handle? id = (c.handle? id).or (if id = .ofName s.name then some c.infos.size else none) := by
  cases hd with
  | @intro es ms _ =>
    obtain ⟨hid, -, hbases⟩ := typeOf_eq c s.name ms
    rw [Catalogue.handle?_register hbases, hid]

theorem handle?_type (hd : Declares c s blocked es h c') : c'.handle? (.ofName s.name) = some h := by
  rw [hd.handle?_eq, if_pos rfl]
  cases hd with
  | @intro es ms _ =>
    obtain ⟨hid, -, hbases⟩ := typeOf_eq c s.name ms
    rw [Catalogue.fst_register hbases, hid]
    cases c.handle? (.ofName s.name) <;> rfl

theorem contains_iff (hd : Declares c s blocked es h c') {id : TypeId} :
    c'.contains id = true ↔ c.contains id = true ∨ id = .ofName s.name := by
  rw [Catalogue.contains_eq, Catalogue.contains_eq, hd.handle?_eq]
  by_cases hid : id = .ofName s.name <;> simp [hid]

theorem grows (hd : Declares c s blocked es h c') : c.Extends c' := by
  cases hd with
  | @intro es ms _ => exact .register (typeOf_eq c s.name ms).2.2

theorem filed (hc : c.Filed) (hd : Declares c s blocked es h c') : c'.Filed := by
  cases hd with
  | @intro es ms _ =>
    obtain ⟨hid, hname, hbases⟩ := typeOf_eq c s.name ms
    exact hc.register hbases (by rw [hid, hname])

theorem handleNamed?_iff (hc : c.Filed) (hd : Declares c s blocked es h c') (name : String) :
    c'.handleNamed? name = none ↔
      c.handleNamed? name = none ∧ (c.contains (.ofName s.name) = true ∨ name ≠ s.name) := by
  cases hd with
  | @intro es ms _ =>
    obtain ⟨hid, hname, hbases⟩ := typeOf_eq c s.name ms
    rw [hc.handleNamed?_register hbases (by rw [hid, hname]), hid, hname]

theorem script_of_mem (hd : Declares c s blocked es h c') : ∀ e ∈ es, ∃ why, e = refusal s.name why := by
  cases hd with
  | @intro es ms judged =>
    refine List.forall_mem_append.mpr ⟨judged.script_of_mem, fun e he => ?_⟩
    unfold typeOf at he
    split at he
    · cases he
    · exact ⟨_, List.mem_singleton.mp he⟩

end Declares

/-- Whether the first script with the identity of a name is the one of that name. -/
def Gives (plan : List (Candidate × List String)) (name : String) : Prop :=
  ∃ r, plan.find? (·.1.2.type == .ofName name) = some r ∧ r.1.2.name = name

namespace DeclaresAll

theorem grows (h : DeclaresAll c plan es hs c') : c.Extends c' := by
  induction h with
  | nil => exact .refl _
  | cons first _ ih => exact first.grows.trans ih

theorem filed (hc : c.Filed) (h : DeclaresAll c plan es hs c') : c'.Filed := by
  induction h with
  | nil => exact hc
  | cons first _ ih => exact ih (first.filed hc)

theorem contains_iff (h : DeclaresAll c plan es hs c') {id : TypeId} :
    c'.contains id = true ↔ c.contains id = true ∨ ∃ r ∈ plan, id = r.1.2.type := by
  induction h with
  | nil => simp
  | @cons c c' c'' s blocked after es es' h hs first _ ih =>
    rw [ih, first.contains_iff, List.exists_mem_cons_iff, or_assoc]
    rfl

/-- A name is known after some declarations if it was known before, or if the first script with its
identity has it. -/
theorem handleNamed?_iff (hc : c.Filed) (h : DeclaresAll c plan es hs c') (name : String) :
    c'.handleNamed? name = none ↔
      c.handleNamed? name = none ∧ (c.contains (.ofName name) = true ∨ ¬ Gives plan name) := by
  induction h with
  | nil =>
    have hnot : ¬ Gives [] name := fun ⟨_, hfind, _⟩ => nomatch hfind
    simp [hnot]
  | @cons c c' c'' s blocked after es es' h hs first _ ih =>
    rw [ih (first.filed hc), first.handleNamed?_iff hc, first.contains_iff]
    by_cases hid : s.2.type = .ofName name
    · have hgives : Gives ((s, blocked) :: after) name ↔ s.2.name = name := by
        unfold Gives
        rw [List.find?_cons_of_pos (by simpa using hid)]
        simp
      have hid' : TypeId.ofName s.2.name = .ofName name := hid
      have hname : name ≠ s.2.name ↔ ¬ s.2.name = name := ne_comm
      rw [hgives, hid', hname]
      simp
    · have hgives : Gives ((s, blocked) :: after) name ↔ Gives after name := by
        unfold Gives
        rw [List.find?_cons_of_neg (by simpa using hid)]
      have hne : TypeId.ofName name ≠ .ofName s.2.name := fun he => hid he.symm
      have hname : name ≠ s.2.name := fun he => hne (congrArg _ he)
      rw [hgives]
      simp [hne, hname]

theorem script_of_mem (h : DeclaresAll c plan es hs c') :
    ∀ e ∈ es, ∃ r ∈ plan, ∃ why, e = refusal r.1.2.name why := by
  induction h with
  | nil => exact List.forall_mem_nil _
  | cons first _ ih =>
    refine List.forall_mem_append.mpr ⟨fun e he => ?_, fun e he => ?_⟩
    · exact ⟨_, List.mem_cons_self, first.script_of_mem e he⟩
    · obtain ⟨r, hr, hwhy⟩ := ih e he
      exact ⟨r, List.mem_cons_of_mem _ hr, hwhy⟩

theorem split (h : DeclaresAll c (before ++ (s, blocked) :: after) es hs c') :
    ∃ c₁ c₂ es₁ es₂ es₃ hs₁ k hs₃, DeclaresAll c before es₁ hs₁ c₁ ∧
      Declares c₁ s.2 blocked es₂ k c₂ ∧
      DeclaresAll c₂ after es₃ hs₃ c' ∧ es = es₁ ++ es₂ ++ es₃ ∧ hs = hs₁ ++ k :: hs₃ := by
  induction before generalizing c es hs with
  | nil =>
    cases h with
    | cons first rest => exact ⟨c, _, [], _, _, [], _, _, .nil c, first, rest, rfl, rfl⟩
  | cons r before ih =>
    cases h with
    | cons first rest =>
      obtain ⟨c₁, c₂, es₁, es₂, es₃, hs₁, k, hs₃, hbefore, hdeclares, hafter, rfl, rfl⟩ := ih rest
      refine ⟨c₁, c₂, _, es₂, es₃, _, k, hs₃, .cons first hbefore, hdeclares, hafter, ?_, rfl⟩
      simp only [List.append_assoc]

end DeclaresAll

section Schedule

variable {scripts : List Script}

theorem schedule_perm (c : Catalogue) (scripts : List Script) :
    ((schedule c scripts).map (·.1)).Perm (accepted c scripts) :=
  rounds_perm (apart_screen c scripts) le_rfl

theorem nodup_schedule (c : Catalogue) (scripts : List Script) :
    ((schedule c scripts).map (·.1.2.name)).Nodup := by
  have hperm := (schedule_perm c scripts).map (·.2.name)
  rw [List.map_map] at hperm
  exact hperm.nodup_iff.mpr (apart_screen c scripts).names

theorem accepted_of_schedule (hplan : schedule c scripts = before ++ (s, blocked) :: after) :
    s ∈ accepted c scripts := by
  refine (schedule_perm c scripts).mem_iff.mp ?_
  rw [hplan, List.map_append]
  exact List.mem_append_right _ List.mem_cons_self

theorem exists_round (hs : s ∈ accepted c scripts) :
    ∃ before blocked after, schedule c scripts = before ++ (s, blocked) :: after := by
  obtain ⟨⟨_, blocked⟩, hr, rfl⟩ := List.mem_map.mp ((schedule_perm c scripts).mem_iff.mpr hs)
  obtain ⟨before, after, hplan⟩ := List.append_of_mem hr
  exact ⟨before, blocked, after, hplan⟩

theorem mem_numbered {s : Script} (hs : s ∈ scripts) : ∃ i, (i, s) ∈ numbered scripts := by
  obtain ⟨i, hi, rfl⟩ := List.getElem_of_mem hs
  exact ⟨i, List.mem_map_of_mem (List.mk_mem_zipIdx_iff_getElem?.mpr (List.getElem?_eq_getElem hi))⟩

theorem script_of_numbered {s : Candidate} (hs : s ∈ numbered scripts) : s.2 ∈ scripts := by
  obtain ⟨q, hq, rfl⟩ := List.mem_map.mp hs
  exact List.fst_mem_of_mem_zipIdx hq

theorem mem_accepted_numbered {s : Candidate} (hs : s ∈ accepted c scripts) : s ∈ numbered scripts :=
  (screen_spec c [] (numbered scripts)).1.subset hs

theorem not_contains_of_accepted (hs : s ∈ accepted c scripts) : c.contains s.2.type = false :=
  ((screen_spec c [] (numbered scripts)).2.1 s hs).2

theorem handle?_of_accepted (hs : s ∈ accepted c scripts) : c.handle? s.2.type = none := by
  have hnot := not_contains_of_accepted hs
  rwa [Catalogue.contains_eq, Option.isSome_eq_false_iff, Option.isNone_iff_eq_none] at hnot

theorem handle?_of_mem_schedule {r : Candidate × List String} (hr : r ∈ schedule c scripts) :
    c.handle? r.1.2.type = none :=
  handle?_of_accepted ((schedule_perm c scripts).mem_iff.mp (List.mem_map_of_mem hr))

theorem schedule_single {c : Catalogue} {script : Script} (hc : c.contains script.type = false) :
    schedule c [script] = [((0, script), [])] := by
  have haccepted : accepted c [script] = [(0, script)] := by
    simp [accepted, numbered, screen, hc]
  have hready : isReady [(0, script)] (0, script) = true := by
    refine List.all_eq_true.mpr fun f _ => ?_
    rw [List.any_cons, List.any_nil, Bool.or_false, Bool.or_eq_true, Bool.not_eq_true', beq_iff_eq]
    by_cases h : f.type = script.name
    · exact .inl h
    · exact .inr (beq_false_of_ne fun heq => h heq.symm)
  rw [schedule, haccepted]
  simp [rounds, choose, hready]

theorem name_ne_of_schedule (hplan : schedule c scripts = before ++ (s, blocked) :: after) :
    (∀ r ∈ before, r.1.2.name ≠ s.2.name) ∧ ∀ r ∈ after, r.1.2.name ≠ s.2.name := by
  have hnodup := nodup_schedule c scripts
  rw [hplan, List.map_append, List.map_cons, List.nodup_append, List.nodup_cons] at hnodup
  obtain ⟨-, ⟨hafter, -⟩, hbefore⟩ := hnodup
  constructor
  · exact fun r hr => hbefore _ (List.mem_map_of_mem hr) _ List.mem_cons_self
  · exact fun r hr heq => hafter (heq ▸ List.mem_map_of_mem hr)

theorem screened_kind (c : Catalogue) (names : List String) (candidates : List Candidate) :
    ∀ e ∈ (screen c names candidates).2, e.kind = .nameNotUnique := by
  induction candidates generalizing names with
  | nil => exact List.forall_mem_nil _
  | cons s rest ih =>
    simp only [screen]
    split
    · exact List.forall_mem_cons.mpr ⟨rfl, ih _⟩
    · exact ih _

end Schedule

theorem fields_of_known {s : Script} {ms : List Member} (hc : c.Filed) (hnew : c.handleNamed? s.name = none)
    (hgiven : (c.register (typeOf c s.name ms).1).2.handle? (.ofName s.name) =
      some (c.register (typeOf c s.name ms).1).1)
    (hgrows : (c.register (typeOf c s.name ms).1).2.Extends c') {k : Handle}
    (hk : c'.handleNamed? s.name = some k) : (c'.info k).fields = (typeOf c s.name ms).1.fields := by
  obtain ⟨hid, -, hbases⟩ := typeOf_eq c s.name ms
  obtain ⟨hhandle, hnamed⟩ := Option.filter_eq_some_iff.mp hk
  have hfresh : c.handle? (typeOf c s.name ms).1.id = none := by
    rw [hid]
    cases htaken : c.handle? (.ofName s.name) with
    | none => rfl
    | some j =>
      have hall := (Catalogue.Extends.register hbases).trans hgrows
      have hsame := hall.handle _ _ htaken
      rw [hhandle] at hsame
      cases hsame
      rw [hc.info_eq hall htaken] at hnamed
      rw [show c.handleNamed? s.name = some k from Option.filter_eq_some_iff.mpr ⟨htaken, hnamed⟩] at hnew
      cases hnew
  have hsame := hgrows.handle _ _ hgiven
  rw [hhandle, Catalogue.fst_register hbases, hfresh, Option.getD_none] at hsame
  cases hsame
  have hlast := hgrows.info c.infos.size
  rw [Catalogue.register_of_fresh hbases hfresh] at hlast
  rw [Catalogue.info_of_getElem? (hlast _ Array.getElem?_push_size), Catalogue.withHeirs_eq]

section Build

variable {w : Workspace} {scripts : List Script}

def built (worldType : String) (scripts : List Script) (w : Workspace) : Built × Loading :=
  (build worldType scripts).run ⟨w, []⟩

theorem context_noteErrors (es : List ScriptError) (w : Workspace) :
    (es.foldl noteError w).context = w.context := by
  induction es generalizing w with
  | nil => rfl
  | cons e es ih =>
    rw [List.foldl_cons, ih]
    exact note_context _ _ _ _

theorem machine_noteErrors (es : List ScriptError) (w : Workspace) :
    Noted w.machine (es.foldl noteError w).machine := by
  induction es generalizing w with
  | nil => exact .refl w.machine
  | cons e es ih => exact (note_machine _ _ _ _).trans (ih _)

theorem load_of_built {l : Loader} {w : Workspace} {made : Built} {st : Loading}
    (hrun : built l.worldType scripts (l.unload w).2 = (made, st)) :
    l.load scripts w = if made.through then
      (some ⟨st.errors.reverse, made.types⟩, { (l.unload w).1 with bodies := made.bodies, types := made.types },
        (if l.notesErrors then st.errors.reverse.foldl noteError st.workspace
          else st.workspace).note .info "Compiled scripts" [("scripts", .nat scripts.length),
            ("types", .nat made.types.length), ("functions", .nat made.bodies.length),
            ("errors", .nat st.errors.reverse.length)])
      else (none, { (l.unload w).1 with bodies := made.bodies }, st.workspace) := by
  rw [load, show (l.unload w) = ((l.unload w).1, (l.unload w).2) from rfl]
  dsimp only
  rw [show (build (l.unload w).1.worldType scripts).run ⟨(l.unload w).2, []⟩ = (made, st) from hrun]
  rfl

/-- Loading builds once what was loaded before is removed. The loader knows then what was built, and there
is a report if everything was compiled. -/
theorem load_eq_built (l : Loader) (scripts : List Script) (w : Workspace) :
    ((l.load scripts w).1 = if (built l.worldType scripts (l.unload w).2).1.through then
      some ⟨(built l.worldType scripts (l.unload w).2).2.errors.reverse,
        (built l.worldType scripts (l.unload w).2).1.types⟩ else none) ∧
    ((l.load scripts w).2.1 = { l with
      bodies := (built l.worldType scripts (l.unload w).2).1.bodies
      types := if (built l.worldType scripts (l.unload w).2).1.through then
        (built l.worldType scripts (l.unload w).2).1.types else [] }) ∧
    (l.load scripts w).2.2.context = (built l.worldType scripts (l.unload w).2).2.workspace.context := by
  obtain ⟨made, st, hrun⟩ : ∃ made st, built l.worldType scripts (l.unload w).2 = (made, st) := ⟨_, _, rfl⟩
  rw [hrun, load_of_built hrun]
  by_cases hthrough : made.through = true
  · rw [if_pos hthrough, if_pos hthrough, if_pos hthrough]
    refine ⟨rfl, rfl, (note_context _ _ _ _).trans ?_⟩
    split
    · exact context_noteErrors _ _
    · rfl
  · rw [if_neg hthrough, if_neg hthrough, if_neg hthrough]
    exact ⟨rfl, rfl, rfl⟩

theorem load_machine (l : Loader) (scripts : List Script) (w : Workspace) :
    Noted (built l.worldType scripts (l.unload w).2).2.workspace.machine (l.load scripts w).2.2.machine := by
  obtain ⟨made, st, hrun⟩ : ∃ made st, built l.worldType scripts (l.unload w).2 = (made, st) := ⟨_, _, rfl⟩
  rw [hrun, load_of_built hrun]
  split
  · refine .trans ?_ (note_machine _ _ _ _)
    split
    · exact machine_noteErrors _ _
    · exact .refl _
  · exact .refl _

theorem load_built (l : Loader) (scripts : List Script) (w : Workspace) :
    (∀ r ∈ (l.load scripts w).1,
      r.errors = (built l.worldType scripts (l.unload w).2).2.errors.reverse ∧
        r.types = (built l.worldType scripts (l.unload w).2).1.types) ∧
      (l.load scripts w).2.2.catalogue =
        (built l.worldType scripts (l.unload w).2).2.workspace.catalogue := by
  obtain ⟨hreport, -, hcontext⟩ := load_eq_built l scripts w
  refine ⟨fun r hr => ?_, congrArg Context.catalogue hcontext⟩
  rw [hreport] at hr
  split at hr
  · cases hr
    exact ⟨rfl, rfl⟩
  · cases hr

theorem remove_context (w : Workspace) (id : TypeId) :
    (w.remove id).2.context = { w.context with catalogue := (w.catalogue.remove id).2 } := by
  unfold Workspace.remove Catalogue.remove
  cases w.catalogue.handle? id with
  | none => rfl
  | some h => exact note_context _ _ _ _

def removeTypes (c : Catalogue) (ids : List TypeId) : Catalogue := ids.foldl (fun c id => (c.remove id).2) c

theorem removeAll_context (w : Workspace) (ids : List TypeId) :
    (w.removeAll ids).2.context = { w.context with catalogue := removeTypes w.catalogue ids } := by
  unfold Workspace.removeAll
  obtain ⟨p, hp⟩ : ∃ p : Nat × Workspace, p = (0, w) := ⟨_, rfl⟩
  rw [← hp, show w = p.2 by rw [hp]]
  clear hp
  induction ids generalizing p with
  | nil => rfl
  | cons id ids ih =>
    obtain ⟨removed, v⟩ := p
    have hremove := remove_context v id
    rw [List.foldl_cons, ih]
    dsimp only
    cases hv : v.remove id with
    | mk t v' =>
      rw [hv] at hremove
      have hcatalogue : v'.catalogue = (v.catalogue.remove id).2 := congrArg Context.catalogue hremove
      cases t <;>
      · dsimp only
        rw [hcatalogue, hremove]
        rfl

def unloadBodies (bodies : Array ScriptBody) (numbers : List Nat) : Array ScriptBody :=
  numbers.foldl (fun bodies i => bodies.modify i fun b => { b with state := .unloaded }) bodies

theorem unload_context (l : Loader) (w : Workspace) :
    (l.unload w).2.context = { w.context with
      catalogue := removeTypes w.catalogue l.types, bodies := unloadBodies w.context.bodies l.bodies } := by
  unfold unload
  dsimp only
  split
  · rw [note_context, removeAll_context]
    rfl
  · rw [removeAll_context]
    rfl

theorem unload_machine (l : Loader) (w : Workspace) : Noted w.machine (l.unload w).2.machine := by
  have hremoveAll : ∀ v : Workspace, Noted v.machine (v.removeAll l.types).2.machine := by
    intro v
    refine List.foldlRecOn (motive := fun p : Nat × Workspace => Noted v.machine p.2.machine) l.types _
      (.refl v.machine) fun p hp id _ => hp.trans ?_
    have hremove : Noted p.2.machine (p.2.remove id).2.machine := by
      unfold Workspace.remove
      split
      · exact .refl _
      · next c _ => exact note_machine (p.2.setCatalogue c) _ _ _
    dsimp only
    split <;> next heq => rwa [heq] at hremove
  unfold unload
  dsimp only
  generalize hv : (⟨_, w.machine⟩ : Workspace) = v
  have hremoved := hremoveAll v
  rw [show v.machine = w.machine by rw [← hv]] at hremoved
  split
  · exact hremoved.trans (note_machine _ _ _ _)
  · exact hremoved

theorem filed_unload (l : Loader) (hc : w.catalogue.Filed) : (l.unload w).2.catalogue.Filed := by
  have hall : ∀ (ids : List TypeId) (c : Catalogue), c.Filed → (removeTypes c ids).Filed := by
    intro ids
    induction ids with
    | nil => exact fun c hc => hc
    | cons id ids ih => exact fun c hc => ih _ (hc.remove id)
  rw [Workspace.catalogue, unload_context]
  exact hall l.types w.catalogue hc

namespace Outfits

theorem info_eq (h : Outfits c c') (k : Handle) : (c'.info k).clearFunctions = (c.info k).clearFunctions := by
  have hget : c'.infos[k]?.map TypeInfo.clearFunctions = c.infos[k]?.map TypeInfo.clearFunctions := by
    simpa using congrArg (fun infos : Array TypeInfo => infos[k]?) h.bare
  have hinfo : ∀ c : Catalogue, (c.info k).clearFunctions =
      (c.infos[k]?.map TypeInfo.clearFunctions).getD default := by
    intro c
    rw [Catalogue.info, Array.getD_eq_getD_getElem?]
    cases c.infos[k]? <;> rfl
  rw [hinfo, hinfo, hget]

theorem name_eq (h : Outfits c c') (k : Handle) : (c'.info k).name = (c.info k).name := by
  simpa [TypeInfo.clearFunctions] using congrArg TypeInfo.name (h.info_eq k)

theorem fields_eq (h : Outfits c c') (k : Handle) : (c'.info k).fields = (c.info k).fields := by
  simpa [TypeInfo.clearFunctions] using congrArg TypeInfo.fields (h.info_eq k)

theorem id_eq (h : Outfits c c') (k : Handle) : (c'.info k).id = (c.info k).id := by
  simpa [TypeInfo.clearFunctions] using congrArg TypeInfo.id (h.info_eq k)

theorem handle?_eq (h : Outfits c c') (id : TypeId) : c'.handle? id = c.handle? id := by
  rw [Catalogue.handle?, Catalogue.handle?, h.index]

theorem handleNamed?_eq (h : Outfits c c') (name : String) : c'.handleNamed? name = c.handleNamed? name := by
  simp only [Catalogue.handleNamed?, h.handle?_eq, h.name_eq]

end Outfits

/-- A round of building: what is known in it, what becomes of the fields, and what is reported of
them. -/
theorem built_round (hc : w.catalogue.Filed) (worldType : String)
    (hplan : schedule w.catalogue scripts = before ++ (s, blocked) :: after) :
    ∃ c es ms, c.Filed ∧
      (∀ name, c.handleNamed? name = none ↔ w.catalogue.handleNamed? name = none ∧
        (w.catalogue.contains (.ofName name) = true ∨ ¬ Gives before name)) ∧
      JudgedAll c s.2.name blocked [] s.2.fields es ms ∧
      (∀ why, why.1 ≠ .nameNotUnique → (refusal s.2.name why ∈ (built worldType scripts w).2.errors ↔
        refusal s.2.name why ∈ es ++ (typeOf c s.2.name ms).2)) ∧
      (∀ e ∈ es, e ∈ (built worldType scripts w).2.errors) ∧
      ∀ t, (built worldType scripts w).2.workspace.catalogue.lookupName? s.2.name = some t →
        t.fields = (typeOf c s.2.name ms).1.fields := by
  obtain ⟨es, fs, hs, c', made, w', hrun, hdeclares, houtfits, hfs, -⟩ := build_spec ⟨w, []⟩ worldType scripts
  have hbuilt : built worldType scripts w =
      (made, ⟨w', (screened w.catalogue scripts ++ es ++ fs).reverse ++ []⟩) := hrun
  dsimp only at hdeclares
  rw [hplan] at hdeclares
  obtain ⟨c₁, c₂, es₁, es₂, es₃, hs₁, k, hs₃, hbefore, hdeclared, hafter, rfl, rfl⟩ := hdeclares.split
  have hfiled := hbefore.filed hc
  have hknown := fun name => hbefore.handleNamed?_iff hc name
  obtain ⟨hne, hne'⟩ := name_ne_of_schedule hplan
  cases hdeclared with
  | @intro es ms judged =>
    refine ⟨c₁, es, ms, hfiled, hknown, judged, fun why hkind => ?_, fun e he => ?_, fun t ht => ?_⟩
    · rw [hbuilt, List.append_nil, List.mem_reverse]
      constructor
      · intro he
        rcases List.mem_append.mp he with he | he
        · rcases List.mem_append.mp he with he | he
          · exact absurd (screened_kind _ _ _ _ he) hkind
          · rcases List.mem_append.mp he with he | he
            · rcases List.mem_append.mp he with he | he
              · obtain ⟨r, hr, why', heq⟩ := hbefore.script_of_mem _ he
                exact absurd (refusal_inj heq).1.symm (hne r hr)
              · exact he
            · obtain ⟨r, hr, why', heq⟩ := hafter.script_of_mem _ he
              exact absurd (refusal_inj heq).1.symm (hne' r hr)
        · cases hfs _ he
      · intro he
        exact List.mem_append_left _ (List.mem_append_right _ (List.mem_append_left _
          (List.mem_append_right _ he)))
    · rw [hbuilt, List.append_nil, List.mem_reverse]
      exact List.mem_append_left _ (List.mem_append_right _ (List.mem_append_left _
        (List.mem_append_right _ (List.mem_append_left _ he))))
    · obtain ⟨k, hk, rfl⟩ := Option.map_eq_some_iff.mp ht
      rw [hbuilt] at hk ⊢
      dsimp only at hk ⊢
      rw [houtfits.handleNamed?_eq] at hk
      rw [houtfits.fields_eq]
      have hnew : c₁.handleNamed? s.2.name = none := by
        refine (hknown s.2.name).mpr ⟨?_, .inr fun ⟨r, hfind, hr⟩ => ?_⟩
        · rw [Catalogue.handleNamed?, show TypeId.ofName s.2.name = s.2.type from rfl,
            handle?_of_accepted (accepted_of_schedule hplan)]
          rfl
        · exact hne r (List.mem_of_find?_eq_some hfind) hr
      have hdeclared : Declares c₁ s.2 blocked _ _ _ := .intro judged
      exact fields_of_known hfiled hnew hdeclared.handle?_type hafter.grows hk

end Build

end Loader

end Flowscript
