import Flowscript.Proofs.Loading.FieldCircles
import Flowscript.Proofs.Loading.MirroredLoading

/-! # What functions are declared

Once the types of scripts are declared, their functions are declared one after another and get the next
numbers. What is added to which type, and what becomes of the bodies, is said here without the steps of
loading.
-/
namespace Flowscript

namespace Loader

def firstNamed : List String → List Graph → List Graph
  | _, [] => []
  | names, g :: rest =>
    if names.contains g.name then firstNamed names rest else g :: firstNamed (g.name :: names) rest

def repeatedNames (script : String) : List String → List Graph → List ScriptError
  | _, [] => []
  | names, g :: rest =>
    if names.contains g.name then repeated script g.name :: repeatedNames script names rest
    else repeatedNames script (g.name :: names) rest

/-- A function to be declared on the type of its script. -/
structure Piece where
  script : Script
  handle : Handle
  graph : Graph

namespace Piece

def body (p : Piece) : ScriptBody := { name := s!"{p.script.name}::{p.graph.name}" }

def setting (p : Piece) (type : TypeId) : Setting where
  script := some p.script.name
  hasWorld := p.graph.signature.event.isSome
  thisType := if p.graph.signature.isStatic then none else some type

def pending (c : Catalogue) (p : Piece) (number : Nat) : PendingBody :=
  ⟨number, p.graph, p.setting (c.info p.handle).id⟩

def function (worldType : String) (c : Catalogue) (p : Piece) (number : Nat) : Function :=
  functionOf worldType (c.info p.handle).id p.graph number

end Piece

/-- The functions that a script declares, if its type is declared. -/
def piecesOf (handles : List (Nat × Handle)) (s : Candidate) : List Piece :=
  match handles.lookup s.1 with
  | some h => (firstNamed [] s.2.functions).map (⟨s.2, h, ·⟩)
  | none => []

def pieces (handles : List (Nat × Handle)) (scripts : List Candidate) : List Piece :=
  scripts.flatMap (piecesOf handles)

def repeatedOf (handles : List (Nat × Handle)) (s : Candidate) : List ScriptError :=
  match handles.lookup s.1 with
  | some _ => repeatedNames s.2.name [] s.2.functions
  | none => []

def furnish (worldType : String) : Catalogue → List (Piece × Nat) → Catalogue
  | c, [] => c
  | c, q :: rest =>
    furnish worldType (c.modify q.1.handle (·.addFunction (q.1.function worldType c q.2))) rest

theorem mem_of_firstNamed {g : Graph} {names : List String} {gs : List Graph} (hg : g ∈ firstNamed names gs) :
    g ∈ gs := by
  induction gs generalizing names with
  | nil => exact hg
  | cons first rest ih =>
    rw [firstNamed] at hg
    split at hg
    · exact List.mem_cons_of_mem _ (ih hg)
    · rcases List.mem_cons.mp hg with rfl | hg
      · exact List.mem_cons_self
      · exact List.mem_cons_of_mem _ (ih hg)

theorem mem_pieces {handles : List (Nat × Handle)} {scripts : List Candidate} {p : Piece}
    (hp : p ∈ pieces handles scripts) :
    ∃ s ∈ scripts, p.script = s.2 ∧ handles.lookup s.1 = some p.handle ∧ p.graph ∈ s.2.functions := by
  obtain ⟨s, hs, hp⟩ := List.mem_flatMap.mp hp
  unfold piecesOf at hp
  split at hp
  · next h hlookup =>
    obtain ⟨g, hg, rfl⟩ := List.mem_map.mp hp
    exact ⟨s, hs, rfl, hlookup, mem_of_firstNamed hg⟩
  · cases hp

section Furnish

variable {worldType : String} {c c' : Catalogue} {h : Handle}

theorem info_addFunction (c : Catalogue) (h k : Handle) (f : Function) :
    (c.modify h (·.addFunction f)).info k =
      if h = k ∧ k < c.infos.size then (c.info k).addFunction f else c.info k :=
  c.info_modify h k _

theorem id_addFunction (c : Catalogue) (h k : Handle) (f : Function) :
    ((c.modify h (·.addFunction f)).info k).id = (c.info k).id := by
  rw [info_addFunction]
  split <;> rfl

theorem Piece.function_congr (hid : ∀ k, (c'.info k).id = (c.info k).id) (p : Piece) (number : Nat) :
    p.function worldType c' number = p.function worldType c number := by
  rw [function, function, hid]

theorem Piece.pending_congr (hid : ∀ k, (c'.info k).id = (c.info k).id) (p : Piece) (number : Nat) :
    p.pending c' number = p.pending c number := by
  rw [pending, pending, hid]

theorem outfits_furnish (c : Catalogue) (qs : List (Piece × Nat)) : Outfits c (furnish worldType c qs) := by
  induction qs generalizing c with
  | nil => exact .refl c
  | cons q qs ih => exact (Outfits.addFunction c _ _).trans (ih _)

theorem size_furnish (c : Catalogue) (qs : List (Piece × Nat)) :
    (furnish worldType c qs).infos.size = c.infos.size := by
  have houtfits : Outfits c (furnish worldType c qs) := outfits_furnish c qs
  simpa using congrArg Array.size houtfits.bare

theorem furnish_append (c : Catalogue) (qs rs : List (Piece × Nat)) :
    furnish worldType c (qs ++ rs) = furnish worldType (furnish worldType c qs) rs := by
  induction qs generalizing c with
  | nil => rfl
  | cons q qs ih => exact ih _

theorem info_furnish (hh : h < c.infos.size) (qs : List (Piece × Nat)) :
    (furnish worldType c qs).info h = (c.info h).addFunctions
      ((qs.filter (·.1.handle == h)).map fun q => q.1.function worldType c q.2) := by
  induction qs generalizing c with
  | nil => rfl
  | cons q qs ih =>
    have hsize : h < (c.modify q.1.handle (·.addFunction (q.1.function worldType c q.2))).infos.size := by
      simpa [Catalogue.modify] using hh
    rw [furnish, ih hsize, info_addFunction]
    simp only [Piece.function_congr (id_addFunction c q.1.handle · _)]
    by_cases hq : q.1.handle = h
    · rw [if_pos ⟨hq, hh⟩, List.filter_cons, if_pos (beq_iff_eq.mpr hq), List.map_cons]
      rfl
    · rw [if_neg fun hboth => hq hboth.1, List.filter_cons, if_neg (by simpa using hq)]

theorem outgrows_furnish {c₀ : Catalogue} (h : c₀.Outgrows c) {qs : List (Piece × Nat)}
    (hqs : ∀ q ∈ qs, c₀.infos.size ≤ q.1.handle) : c₀.Outgrows (furnish worldType c qs) := by
  induction qs generalizing c with
  | nil => exact h
  | cons q qs ih =>
    obtain ⟨hq, hqs⟩ := List.forall_mem_cons.mp hqs
    exact ih (h.modify hq (fun _ => ⟨rfl, rfl⟩) fun _ => rfl) hqs

end Furnish

section Declare

variable {st : Loading}

/-- What declaring functions leads to: their numbers, and their bodies. -/
structure Furnished (worldType : String) (k : Context) (ps : List Piece) (k' : Context) : Prop where
  catalogue : k'.catalogue = furnish worldType k.catalogue (ps.zipIdx k.bodies.size)
  bodies : k'.bodies = k.bodies ++ (ps.map Piece.body).toArray
  traceLimit : k'.traceLimit = k.traceLimit

def pendingOf (k : Context) (ps : List Piece) : List PendingBody :=
  (ps.zipIdx k.bodies.size).map fun q => q.1.pending k.catalogue q.2

theorem Furnished.nil (worldType : String) (k : Context) : Furnished worldType k [] k := ⟨rfl, by simp, rfl⟩

variable {worldType : String} {k k' k'' : Context} {ps ps' : List Piece}

theorem Furnished.size (h : Furnished worldType k ps k') : k'.bodies.size = k.bodies.size + ps.length := by
  simp [h.bodies]

theorem Furnished.outfits (h : Furnished worldType k ps k') : Outfits k.catalogue k'.catalogue :=
  h.catalogue ▸ outfits_furnish _ _

theorem Furnished.append (h : Furnished worldType k ps k') (h' : Furnished worldType k' ps' k'') :
    Furnished worldType k (ps ++ ps') k'' where
  catalogue := by
    rw [h'.catalogue, h.catalogue, h.size, List.zipIdx_append, furnish_append, Nat.add_comm]
  bodies := by
    rw [h'.bodies, h.bodies, List.map_append, Array.append_assoc]
    simp
  traceLimit := h'.traceLimit.trans h.traceLimit

theorem pendingOf_append (h : Furnished worldType k ps k') :
    pendingOf k (ps ++ ps') = pendingOf k ps ++ pendingOf k' ps' := by
  unfold pendingOf
  rw [List.zipIdx_append, List.map_append, h.size, Nat.add_comm]
  congr 1
  exact List.map_congr_left fun q _ => (Piece.pending_congr (h.outfits.id_eq ·) q.1 q.2).symm

theorem declareFunctions_eq (st : Loading) (worldType : String) (s : Script) (h : Handle) (names : List String)
    (gs : List Graph) :
    ∃ w, (declareFunctions worldType s h names gs).run st =
        (pendingOf st.workspace.context ((firstNamed names gs).map (⟨s, h, ·⟩)),
          ⟨w, (repeatedNames s.name names gs).reverse ++ st.errors⟩) ∧ w.machine = st.workspace.machine ∧
      Furnished worldType st.workspace.context ((firstNamed names gs).map (⟨s, h, ·⟩)) w.context := by
  induction gs generalizing names st with
  | nil => exact ⟨st.workspace, rfl, rfl, .nil _ _⟩
  | cons g gs ih =>
    rw [declareFunctions, firstNamed, repeatedNames]
    split
    · obtain ⟨w, hrun, hmachine, hfurnished⟩ := ih ⟨st.workspace, repeated s.name g.name :: st.errors⟩ names
      refine ⟨w, ?_, hmachine, hfurnished⟩
      rw [List.reverse_cons, List.append_assoc]
      exact hrun
    · let p : Piece := ⟨s, h, g⟩
      let w₁ : Workspace := ({ st.workspace with
        context.bodies := st.workspace.context.bodies.push p.body }).addFunction h
          (p.function worldType st.workspace.catalogue st.workspace.context.bodies.size)
      have hone : Furnished worldType st.workspace.context [p] w₁.context :=
        ⟨rfl, by simp [w₁, Workspace.addFunction, Workspace.setCatalogue], rfl⟩
      obtain ⟨w, hrun, hmachine, hfurnished⟩ := ih ⟨w₁, st.errors⟩ (g.name :: names)
      refine ⟨w, ?_, hmachine, hone.append hfurnished⟩
      rw [List.map_cons, show (p :: (firstNamed (g.name :: names) gs).map (⟨s, h, ·⟩)) =
        [p] ++ (firstNamed (g.name :: names) gs).map (⟨s, h, ·⟩) from rfl, pendingOf_append hone]
      rw [bind_workspace]
      dsimp only
      rw [bind_modifyWorkspace]
      exact bind_of_run hrun _

theorem declareAll_eq (st : Loading) (worldType : String) (handles : List (Nat × Handle))
    (scripts : List Candidate) :
    ∃ w, (declareAll worldType handles scripts).run st =
        (pendingOf st.workspace.context (pieces handles scripts),
          ⟨w, (scripts.flatMap (repeatedOf handles)).reverse ++ st.errors⟩) ∧
      w.machine = st.workspace.machine ∧
      Furnished worldType st.workspace.context (pieces handles scripts) w.context := by
  induction scripts generalizing st with
  | nil => exact ⟨st.workspace, rfl, rfl, .nil _ _⟩
  | cons s scripts ih =>
    rw [declareAll, pieces, List.flatMap_cons, List.flatMap_cons]
    unfold piecesOf repeatedOf
    cases handles.lookup s.1 with
    | none =>
      obtain ⟨w, hrun, hmachine, hfurnished⟩ := ih st
      refine ⟨w, ?_, hmachine, hfurnished⟩
      dsimp only
      rw [pure_bind, bind_of_run hrun]
      rfl
    | some h =>
      obtain ⟨w, hrun, hmachine, hfurnished⟩ := declareFunctions_eq st worldType s.2 h [] s.2.functions
      obtain ⟨w', hrun', hmachine', hfurnished'⟩ :=
        ih ⟨w, (repeatedNames s.2.name [] s.2.functions).reverse ++ st.errors⟩
      refine ⟨w', ?_, hmachine'.trans hmachine, hfurnished.append hfurnished'⟩
      dsimp only
      rw [bind_of_run hrun, bind_of_run hrun', List.reverse_append, List.append_assoc,
        pendingOf_append hfurnished]
      rfl

end Declare

section Compile

/-- What becomes of a body, if compiling gets through. -/
def settledOf (c : Catalogue) (b : PendingBody) : Option BodyState :=
  match Program.compile b.graph c b.setting with
  | .ok p => some (.ready p)
  | .error (.errors errors) => some (.failed (reason errors))
  | .error .overrun | .error .overflow => none

def bodyErrors (c : Catalogue) (b : PendingBody) : List ScriptError :=
  match Program.compile b.graph c b.setting with
  | .error (.errors errors) => errors
  | _ => []

/-- Bodies are settled, as far as compiling gets through. -/
def settleAll (c : Catalogue) : Array ScriptBody → List PendingBody → Array ScriptBody
  | bodies, [] => bodies
  | bodies, b :: rest =>
    match settledOf c b with
    | some state => settleAll c (bodies.modify b.number fun body => { body with state }) rest
    | none => bodies

/-- What is reported of bodies, as far as compiling gets through. -/
def reportedOf (c : Catalogue) : List PendingBody → List ScriptError
  | [] => []
  | b :: rest => if (settledOf c b).isSome then bodyErrors c b ++ reportedOf c rest else []

theorem compileBodies_eq (st : Loading) (bs : List PendingBody) :
    ∃ w, (compileBodies bs).run st = (bs.all fun b => (settledOf st.workspace.catalogue b).isSome,
        ⟨w, (reportedOf st.workspace.catalogue bs).reverse ++ st.errors⟩) ∧ w.machine = st.workspace.machine ∧
      w.context = { st.workspace.context with
        bodies := settleAll st.workspace.catalogue st.workspace.context.bodies bs } := by
  induction bs generalizing st with
  | nil => exact ⟨st.workspace, rfl, rfl, rfl⟩
  | cons b bs ih =>
    rw [compileBodies, compileBody, bind_assoc, bind_workspace, List.all_cons, reportedOf, settleAll]
    unfold settledOf bodyErrors
    cases hcompile : Program.compile b.graph st.workspace.catalogue b.setting with
    | ok p =>
      obtain ⟨w, hrun, hmachine, hcontext⟩ := ih ⟨{ st.workspace with
        context.bodies := st.workspace.context.bodies.modify b.number fun body => { body with state := .ready p } },
        st.errors⟩
      exact ⟨w, hrun, hmachine, hcontext⟩
    | error failure =>
      cases failure with
      | overrun | overflow => exact ⟨st.workspace, rfl, rfl, rfl⟩
      | errors errors =>
        obtain ⟨w, hrun, hmachine, hcontext⟩ := ih ⟨{ st.workspace with
          context.bodies := st.workspace.context.bodies.modify b.number fun body =>
            { body with state := .failed (reason errors) } }, errors.reverse ++ st.errors⟩
        refine ⟨w, ?_, hmachine, hcontext⟩
        dsimp only
        rw [bind_assoc, bind_of_run (report_all st errors), Option.isSome_some, if_pos rfl, List.reverse_append,
          List.append_assoc]
        exact hrun

variable {c : Catalogue} {bodies : Array ScriptBody}

theorem size_settleAll (c : Catalogue) (bodies : Array ScriptBody) (bs : List PendingBody) :
    (settleAll c bodies bs).size = bodies.size := by
  induction bs generalizing bodies with
  | nil => rfl
  | cons b bs ih =>
    rw [settleAll]
    split
    · rw [ih, Array.size_modify]
    · rfl

theorem getElem?_settleAll_of_notMem {bs : List PendingBody} {n : Nat} (hn : n ∉ bs.map (·.number)) :
    (settleAll c bodies bs)[n]? = bodies[n]? := by
  induction bs generalizing bodies with
  | nil => rfl
  | cons b bs ih =>
    rw [List.map_cons, List.mem_cons, not_or] at hn
    rw [settleAll]
    split
    · rw [ih hn.2, Array.getElem?_modify, if_neg (Ne.symm hn.1)]
    · rfl

theorem getElem?_settleAll_of_mem {bs : List PendingBody} (hnodup : (bs.map (·.number)).Nodup)
    (hall : ∀ b ∈ bs, (settledOf c b).isSome) {b : PendingBody} (hb : b ∈ bs) :
    (settleAll c bodies bs)[b.number]? =
      (bodies[b.number]?).bind fun body => (settledOf c b).map fun state => { body with state } := by
  induction bs generalizing bodies with
  | nil => cases hb
  | cons first bs ih =>
    obtain ⟨hfirst, hrest⟩ := List.forall_mem_cons.mp hall
    obtain ⟨state, hstate⟩ := Option.isSome_iff_exists.mp hfirst
    rw [List.map_cons, List.nodup_cons] at hnodup
    rw [settleAll, hstate]
    dsimp only
    rcases List.mem_cons.mp hb with rfl | hb
    · rw [getElem?_settleAll_of_notMem hnodup.1, Array.getElem?_modify, if_pos rfl, hstate]
      cases bodies[b.number]? <;> rfl
    · have hne : first.number ≠ b.number := fun heq => hnodup.1 (heq ▸ List.mem_map_of_mem hb)
      rw [ih hnodup.2 hrest hb, Array.getElem?_modify, if_neg hne]

theorem reportedOf_eq {bs : List PendingBody} (hall : ∀ b ∈ bs, (settledOf c b).isSome) :
    reportedOf c bs = bs.flatMap (bodyErrors c) := by
  induction bs with
  | nil => rfl
  | cons b bs ih =>
    obtain ⟨hb, hbs⟩ := List.forall_mem_cons.mp hall
    rw [reportedOf, if_pos hb, ih hbs, List.flatMap_cons]

end Compile

section Build

variable {worldType : String} {scripts : List Script} {w : Workspace} {es : List ScriptError}
  {hs : List Handle} {c : Catalogue} {k : Context}

def handlesOf (plan : List (Candidate × List String)) (hs : List Handle) : List (Nat × Handle) :=
  (plan.map (·.1.1)).zip hs

/-- The functions that scripts declare once their types have the given handles. -/
def allPieces (c : Catalogue) (scripts : List Script) (hs : List Handle) : List Piece :=
  pieces (handlesOf (schedule c scripts) hs) (numbered scripts)

/-- What is reported of functions that are declared more than once. -/
def allRepeated (c : Catalogue) (scripts : List Script) (hs : List Handle) : List ScriptError :=
  (numbered scripts).flatMap (repeatedOf (handlesOf (schedule c scripts) hs))

/-- The bodies that are compiled once types are declared in a catalogue. -/
def allPending (w : Workspace) (scripts : List Script) (hs : List Handle) (c : Catalogue) :
    List PendingBody :=
  pendingOf { w.context with catalogue := c } (allPieces w.catalogue scripts hs)

/-- What is built, phase by phase: types are declared in a catalogue `c`, then functions in a context `k`, and
last their bodies are compiled. -/
structure Builds (worldType : String) (scripts : List Script) (w : Workspace) (es : List ScriptError)
    (hs : List Handle) (c : Catalogue) (k : Context) : Prop where
  takes : TakesAll w.context w.machine (schedule w.catalogue scripts) es hs c
    (built worldType scripts w).2.workspace.machine
  furnished : Furnished worldType { w.context with catalogue := c } (allPieces w.catalogue scripts hs) k
  types : (built worldType scripts w).1.types = hs.map fun h => (c.info h).id
  bodies : (built worldType scripts w).1.bodies = (allPending w scripts hs c).map (·.number)
  through : (built worldType scripts w).1.through =
    (allPending w scripts hs c).all fun b => (settledOf k.catalogue b).isSome
  errors : (built worldType scripts w).2.errors.reverse =
    screened w.catalogue scripts ++ es ++ allRepeated w.catalogue scripts hs ++
      reportedOf k.catalogue (allPending w scripts hs c)
  context : (built worldType scripts w).2.workspace.context =
    { k with bodies := settleAll k.catalogue k.bodies (allPending w scripts hs c) }

theorem exists_builds (worldType : String) (scripts : List Script) (w : Workspace) :
    ∃ es hs c k, Builds worldType scripts w es hs c k := by
  obtain ⟨es, hs, w₁, c, hrun, hcontext, htakes⟩ := declareTypes_takes
    ⟨w, (screened w.catalogue scripts).reverse ++ []⟩ (accepted w.catalogue scripts).length
    (accepted w.catalogue scripts)
  obtain ⟨w₂, hrun₂, hmachine₂, hfurnished⟩ := declareAll_eq
    ⟨w₁, es.reverse ++ ((screened w.catalogue scripts).reverse ++ [])⟩ worldType
    (handlesOf (schedule w.catalogue scripts) hs) (numbered scripts)
  dsimp only at hrun₂ hfurnished hcontext
  rw [hcontext] at hrun₂ hfurnished
  obtain ⟨w₃, hrun₃, hmachine₃, hcontext₃⟩ := compileBodies_eq
    ⟨w₂, (allRepeated w.catalogue scripts hs).reverse ++
      (es.reverse ++ ((screened w.catalogue scripts).reverse ++ []))⟩ (allPending w scripts hs c)
  dsimp only at hrun₃ hcontext₃
  have hid : ∀ h, (w₃.catalogue.info h).id = (c.info h).id := by
    intro h
    rw [Workspace.catalogue, hcontext₃]
    exact hfurnished.outfits.id_eq h
  have htypes : (handlesOf (schedule w.catalogue scripts) hs).map (fun p => (w₃.catalogue.info p.2).id) =
      hs.map fun h => (c.info h).id := by
    have hlength : hs.length ≤ ((schedule w.catalogue scripts).map (·.1.1)).length := by
      rw [List.length_map, htakes.declaresAll.length_eq, schedule]
    have hzip := congrArg (List.map fun h => (c.info h).id) (List.map_snd_zip hlength)
    rw [List.map_map] at hzip
    simp only [hid]
    exact hzip
  have hbuilt : built worldType scripts w =
      (⟨(handlesOf (schedule w.catalogue scripts) hs).map fun p => (w₃.catalogue.info p.2).id,
        (allPending w scripts hs c).map (·.number),
        (allPending w scripts hs c).all fun b => (settledOf w₂.catalogue b).isSome⟩,
      ⟨w₃, (reportedOf w₂.catalogue (allPending w scripts hs c)).reverse ++
        ((allRepeated w.catalogue scripts hs).reverse ++
          (es.reverse ++ ((screened w.catalogue scripts).reverse ++ [])))⟩) := by
    rw [built, build, bind_workspace]
    dsimp only
    rw [show screen w.catalogue [] (scripts.zipIdx.map fun p => (p.2, p.1)) =
      (accepted w.catalogue scripts, screened w.catalogue scripts) from rfl]
    dsimp only
    rw [bind_of_run (report_all _ _), bind_of_run hrun]
    exact (bind_of_run hrun₂ _).trans (bind_of_run hrun₃ _)
  refine ⟨es, hs, c, w₂.context, ?_, hfurnished, ?_, ?_, ?_, ?_, ?_⟩
  · rw [hbuilt, hmachine₃, hmachine₂]
    exact htakes
  · rw [hbuilt, ← htypes]
  · rw [hbuilt]
  · rw [hbuilt]
    rfl
  · rw [hbuilt]
    simp only [List.reverse_append, List.reverse_reverse, List.append_assoc, List.append_nil]
    rfl
  · rw [hbuilt]
    exact hcontext₃

namespace Builds

variable (h : Builds worldType scripts w es hs c k)
include h

theorem declares : DeclaresAll w.catalogue (schedule w.catalogue scripts) es hs c :=
  h.takes.declaresAll

theorem types_eq (hc : w.catalogue.Filed) :
    (built worldType scripts w).1.types = (schedule w.catalogue scripts).map (·.1.2.type) := by
  rw [h.types, h.declares.map_id hc]

theorem contains_iff (hc : w.catalogue.Filed) {id : TypeId} :
    (built worldType scripts w).2.workspace.catalogue.contains id = true ↔
      w.catalogue.contains id = true ∨ id ∈ (built worldType scripts w).1.types := by
  have hoff : k.catalogue.contains id = c.contains id := by
    rw [Catalogue.contains_eq, Catalogue.contains_eq, h.furnished.outfits.handle?_eq]
  rw [Workspace.catalogue, h.context, hoff, h.declares.contains_iff, h.types_eq hc, List.mem_map]
  refine or_congr Iff.rfl (exists_congr fun r => and_congr Iff.rfl eq_comm)

omit h in
theorem numbers_allPending (w : Workspace) (scripts : List Script) (hs : List Handle) (c : Catalogue) :
    (allPending w scripts hs c).map (·.number) =
      List.range' w.context.bodies.size (allPieces w.catalogue scripts hs).length := by
  unfold allPending pendingOf
  rw [List.map_map, ← List.zipIdx_map_snd]
  rfl

theorem bodies_eq : (built worldType scripts w).1.bodies =
    List.range' w.context.bodies.size (allPieces w.catalogue scripts hs).length := by
  rw [h.bodies, numbers_allPending]

theorem size_bodies : (built worldType scripts w).2.workspace.context.bodies.size =
    w.context.bodies.size + (allPieces w.catalogue scripts hs).length := by
  rw [h.context, size_settleAll]
  exact h.furnished.size

/-- Compiling gets through if every body is compiled or found wrong. -/
theorem through_iff : (built worldType scripts w).1.through = true ↔
    ∀ b ∈ allPending w scripts hs c, (settledOf k.catalogue b).isSome := by
  rw [h.through, List.all_eq_true]

theorem outgrows {k₀ : Context} (hk : k₀.Outgrows w.context)
    (hnew : ∀ r ∈ schedule w.catalogue scripts, k₀.catalogue.handle? r.1.2.type = none) :
    k₀.Outgrows (built worldType scripts w).2.workspace.context := by
  obtain ⟨hcatalogue, hhandles⟩ := h.declares.outgrows hnew hk.catalogue
  have hbodies := hk.bodies_le
  rw [h.context]
  refine ⟨?_, ?_, fun n hn => ?_⟩
  · rw [show ({ k with bodies := settleAll k.catalogue k.bodies (allPending w scripts hs c) } : Context).catalogue =
      k.catalogue from rfl, h.furnished.catalogue]
    refine outgrows_furnish hcatalogue fun q hq => hhandles _ ?_
    obtain ⟨_, -, -, hlookup, -⟩ := mem_pieces (List.fst_mem_of_mem_zipIdx hq)
    obtain ⟨before, after, hsplit, -⟩ := List.lookup_eq_some_iff.mp hlookup
    exact (List.of_mem_zip (hsplit ▸ List.mem_append_right before List.mem_cons_self)).2
  · show _ ≤ (settleAll _ _ _).size
    rw [size_settleAll, h.furnished.size]
    exact hbodies.trans (Nat.le_add_right _ _)
  · show (settleAll _ _ _)[n]? = _
    rw [getElem?_settleAll_of_notMem, h.furnished.bodies, Array.getElem?_append_left (hn.trans_le hbodies)]
    · exact hk.body n hn
    · rw [numbers_allPending, List.mem_range'_1]
      omega

end Builds

theorem isSome_load (l : Loader) (scripts : List Script) (w : Workspace) :
    (l.load scripts w).1.isSome = (built l.worldType scripts (l.unload w).2).1.through := by
  rw [(load_eq_built l scripts w).1]
  cases (built l.worldType scripts (l.unload w).2).1.through <;> rfl

theorem allPieces_eq_nil {c : Catalogue} (hscripts : ∀ s ∈ scripts, s.functions = []) :
    allPieces c scripts hs = [] := by
  refine List.eq_nil_iff_forall_not_mem.mpr fun p hp => ?_
  obtain ⟨s, hs, -, -, hg⟩ := mem_pieces hp
  obtain ⟨q, hq, rfl⟩ := List.mem_map.mp hs
  rw [hscripts q.1 (List.fst_mem_of_mem_zipIdx hq)] at hg
  cases hg

theorem isSome_load_of_functions {l : Loader} (hscripts : ∀ s ∈ scripts, s.functions = []) (w : Workspace) :
    (l.load scripts w).1.isSome := by
  obtain ⟨es, hs, c, k, hbuilds⟩ := exists_builds l.worldType scripts (l.unload w).2
  rw [isSome_load, hbuilds.through_iff, allPending, allPieces_eq_nil hscripts]
  exact List.forall_mem_nil _

theorem traceLimit_load (l : Loader) (scripts : List Script) (w : Workspace) :
    (l.load scripts w).2.2.context.traceLimit = w.context.traceLimit := by
  obtain ⟨es, hs, c, k, hbuilds⟩ := exists_builds l.worldType scripts (l.unload w).2
  rw [(load_eq_built l scripts w).2.2, hbuilds.context]
  refine hbuilds.furnished.traceLimit.trans (show (l.unload w).2.context.traceLimit = _ from ?_)
  rw [unload_context]

/-- A script without functions whose name is free is taken, and nothing else is reported. -/
theorem load_single {l : Loader} {s : Script} {w : Workspace} (hfunctions : s.functions = [])
    (hnew : (l.unload w).2.catalogue.contains s.type = false) :
    ∃ es h c m, Takes (l.unload w).2.context (l.unload w).2.machine s [] es h c m ∧
      Noted m (l.load [s] w).2.2.machine ∧ ∃ r, (l.load [s] w).1 = some r ∧ r.errors = es := by
  obtain ⟨es, hs, c, k, hbuilds⟩ := exists_builds l.worldType [s] (l.unload w).2
  have hthrough : (built l.worldType [s] (l.unload w).2).1.through = true := by
    rw [← isSome_load]
    exact isSome_load_of_functions (List.forall_mem_singleton.mpr hfunctions) w
  have hreport := (load_eq_built l [s] w).1.trans (if_pos hthrough)
  have hscreened : screened (l.unload w).2.catalogue [s] = [] := by
    simp [screened, numbered, screen, hnew]
  have hrepeated : allRepeated (l.unload w).2.catalogue [s] hs = [] := by
    refine List.flatMap_eq_nil_iff.mpr fun d hd => ?_
    rw [repeatedOf, List.mem_singleton.mp (script_of_numbered hd), hfunctions]
    split <;> rfl
  have hreported : reportedOf k.catalogue (allPending (l.unload w).2 [s] hs c) = [] := by
    rw [allPending, allPieces_eq_nil (List.forall_mem_singleton.mpr hfunctions)]
    rfl
  have htakes := hbuilds.takes
  rw [schedule_single hnew] at htakes
  have herrors := hbuilds.errors
  rw [hscreened, hrepeated, hreported, List.nil_append, List.append_nil, List.append_nil] at herrors
  have hnoted := load_machine l [s] w
  clear hbuilds hthrough
  generalize built l.worldType [s] (l.unload w).2 = b at htakes herrors hreport hnoted
  cases htakes with
  | cons first rest =>
    cases rest
    rw [List.append_nil] at herrors
    exact ⟨_, _, _, _, first, hnoted, _, hreport, herrors⟩

end Build

end Loader

end Flowscript
