import Flowscript.Proofs.Loading.DeclarationRounds
import Flowscript.Proofs.Types.TypeRegistration

/-! # What is declared

The declarations of a list of scripts, described without the machine: what becomes of each field, which
type a script gets, and how the catalogue goes from script to script. Only whether a default can be
read is left open here. Loading goes as described.
-/
namespace Flowscript.Loader

def refusal (script : String) (why : ErrorKind × String) : ScriptError :=
  ({ kind := why.1, message := why.2 : ScriptError }).inScript script

def unreadable (f : FieldDecl) (why : String) : ErrorKind × String :=
  (.typeCannotBeMember, s!"default of field `{f.name}` is not a valid `{f.type}`: {why}")

/-- What says that the layout of a type is too large. -/
def overflow (script : String) : ErrorKind × String :=
  (.compilerBug, s!"layout of `{script}` overflowed: invalid parameters to Layout::from_size_align")

/-- What becomes of a field whose script has fields with the given names before it: the errors, and the
member that it is. -/
inductive Judged (c : Catalogue) (script : String) (blocked names : List String) (f : FieldDecl) :
    List ScriptError → Option Member → Prop where
  | refused {why : ErrorKind × String} (h : refuseField? c script blocked names f = .error why) :
    Judged c script blocked names f [refusal script why] none
  | unreadable {type : Handle} (h : refuseField? c script blocked names f = .ok type)
    (hdefault : f.default.isSome) (why : String) :
    Judged c script blocked names f [refusal script (unreadable f why)] none
  | kept {type : Handle} (h : refuseField? c script blocked names f = .ok type) :
    Judged c script blocked names f [] (some ⟨f.name, type, f.default⟩)

theorem Judged.eq_kept {c : Catalogue} {script : String} {blocked names : List String} {f : FieldDecl}
    {es : List ScriptError} {m : Option Member} {type : Handle} (h : Judged c script blocked names f es m)
    (hok : refuseField? c script blocked names f = .ok type) (hdefault : f.default = none) :
    es = [] ∧ m = some ⟨f.name, type, none⟩ := by
  cases h with
  | refused h => cases hok.symm.trans h
  | unreadable _ h =>
    rw [hdefault] at h
    cases h
  | kept h =>
    cases hok.symm.trans h
    rw [hdefault]
    exact ⟨rfl, rfl⟩

inductive JudgedAll (c : Catalogue) (script : String) (blocked : List String) :
    List String → List FieldDecl → List ScriptError → List Member → Prop where
  | nil (names : List String) : JudgedAll c script blocked names [] [] []
  | cons {names : List String} {f : FieldDecl} {fields : List FieldDecl} {es es' : List ScriptError}
    {m : Option Member} {ms : List Member} (first : Judged c script blocked names f es m)
    (rest : JudgedAll c script blocked (f.name :: names) fields es' ms) :
    JudgedAll c script blocked names (f :: fields) (es ++ es') (m.toList ++ ms)

/-- What becomes of a field in a context where its default is read on a machine, and what becomes of that. -/
inductive Finds (k : Context) (m : Machine) (script : String) (blocked names : List String) (f : FieldDecl) :
    List ScriptError → Option Member → Machine → Prop where
  | refused {why : ErrorKind × String} (h : refuseField? k.catalogue script blocked names f = .error why) :
    Finds k m script blocked names f [refusal script why] none m
  | bare {type : Handle} (h : refuseField? k.catalogue script blocked names f = .ok type)
    (hdefault : f.default = none) :
    Finds k m script blocked names f [] (some ⟨f.name, type, f.default⟩) m
  | read {type : Handle} {j : Json} {m' : Machine}
    (h : refuseField? k.catalogue script blocked names f = .ok type) (hdefault : f.default = some j)
    (hread : checkDefault (k.catalogue.info type) j k m = .ok () m') :
    Finds k m script blocked names f [] (some ⟨f.name, type, f.default⟩) m'
  | unread {type : Handle} {j : Json} {m' : Machine} {e : CallError}
    (h : refuseField? k.catalogue script blocked names f = .ok type) (hdefault : f.default = some j)
    (hread : checkDefault (k.catalogue.info type) j k m = .error e m') :
    Finds k m script blocked names f [refusal script (unreadable f e.message)] none m'

inductive FindsAll (k : Context) (script : String) (blocked : List String) :
    Machine → List String → List FieldDecl → List ScriptError → List Member → Machine → Prop where
  | nil (m : Machine) (names : List String) : FindsAll k script blocked m names [] [] [] m
  | cons {m m' m'' : Machine} {names : List String} {f : FieldDecl} {fields : List FieldDecl}
    {es es' : List ScriptError} {x : Option Member} {ms : List Member}
    (first : Finds k m script blocked names f es x m')
    (rest : FindsAll k script blocked m' (f.name :: names) fields es' ms m'') :
    FindsAll k script blocked m names (f :: fields) (es ++ es') (x.toList ++ ms) m''

theorem Finds.judged {k : Context} {m m' : Machine} {script : String} {blocked names : List String}
    {f : FieldDecl} {es : List ScriptError} {x : Option Member}
    (h : Finds k m script blocked names f es x m') : Judged k.catalogue script blocked names f es x := by
  cases h with
  | refused h => exact .refused h
  | bare h | read h => exact .kept h
  | unread h hdefault => exact .unreadable h (by rw [hdefault]; rfl) _

theorem FindsAll.judgedAll {k : Context} {m m' : Machine} {script : String} {blocked names : List String}
    {fields : List FieldDecl} {es : List ScriptError} {ms : List Member}
    (h : FindsAll k script blocked m names fields es ms m') :
    JudgedAll k.catalogue script blocked names fields es ms := by
  induction h with
  | nil m names => exact .nil names
  | cons first _ ih => exact .cons first.judged ih

def typeOf (c : Catalogue) (script : String) (members : List Member) :
    TypeInfo × List ScriptError :=
  match Aggregate.place? c members with
  | some (layout, parts) => (Aggregate.info c script layout parts, [])
  | none => (Aggregate.info c script Layout.empty [], [refusal script (overflow script)])

/-- The declaration of a script, from one catalogue to the next. -/
inductive Declares (c : Catalogue) (s : Script) (blocked : List String) :
    List ScriptError → Handle → Catalogue → Prop where
  | intro {es : List ScriptError} {members : List Member}
    (judged : JudgedAll c s.name blocked [] s.fields es members) :
    Declares c s blocked (es ++ (typeOf c s.name members).2)
      (c.register (typeOf c s.name members).1).1 (c.register (typeOf c s.name members).1).2

inductive DeclaresAll : Catalogue → List (Candidate × List String) → List ScriptError →
    List Handle → Catalogue → Prop where
  | nil (c : Catalogue) : DeclaresAll c [] [] [] c
  | cons {c c' c'' : Catalogue} {s : Candidate} {blocked : List String}
    {after : List (Candidate × List String)} {es es' : List ScriptError} {h : Handle}
    {hs : List Handle} (first : Declares c s.2 blocked es h c')
    (rest : DeclaresAll c' after es' hs c'') :
    DeclaresAll c ((s, blocked) :: after) (es ++ es') (h :: hs) c''

inductive Takes (k : Context) (m : Machine) (s : Script) (blocked : List String) :
    List ScriptError → Handle → Catalogue → Machine → Prop where
  | intro {es : List ScriptError} {members : List Member} {m' : Machine}
    (found : FindsAll k s.name blocked m [] s.fields es members m') (journal : List Event) :
    Takes k m s blocked (es ++ (typeOf k.catalogue s.name members).2)
      (k.catalogue.register (typeOf k.catalogue s.name members).1).1
      (k.catalogue.register (typeOf k.catalogue s.name members).1).2 { m' with journal }

/-- The declarations of rounds one after another in a context, on a machine. -/
inductive TakesAll : Context → Machine → List (Candidate × List String) → List ScriptError →
    List Handle → Catalogue → Machine → Prop where
  | nil (k : Context) (m : Machine) : TakesAll k m [] [] [] k.catalogue m
  | cons {k : Context} {m m' m'' : Machine} {c c' : Catalogue} {s : Candidate} {blocked : List String}
    {after : List (Candidate × List String)} {es es' : List ScriptError} {h : Handle}
    {hs : List Handle} (first : Takes k m s.2 blocked es h c m')
    (rest : TakesAll { k with catalogue := c } m' after es' hs c' m'') :
    TakesAll k m ((s, blocked) :: after) (es ++ es') (h :: hs) c' m''

theorem Takes.declares {k : Context} {m m' : Machine} {s : Script} {blocked : List String}
    {es : List ScriptError} {h : Handle} {c : Catalogue} (ht : Takes k m s blocked es h c m') :
    Declares k.catalogue s blocked es h c := by
  cases ht with
  | intro found => exact .intro found.judgedAll

theorem TakesAll.declaresAll {k : Context} {m m' : Machine} {plan : List (Candidate × List String)}
    {es : List ScriptError} {hs : List Handle} {c : Catalogue} (ht : TakesAll k m plan es hs c m') :
    DeclaresAll k.catalogue plan es hs c := by
  induction ht with
  | nil k m => exact .nil _
  | cons first _ ih => exact .cons first.declares ih

theorem DeclaresAll.length_eq {c c' : Catalogue} {plan : List (Candidate × List String)}
    {es : List ScriptError} {hs : List Handle} (h : DeclaresAll c plan es hs c') :
    hs.length = plan.length := by
  induction h with
  | nil => rfl
  | cons _ _ ih => rw [List.length_cons, List.length_cons, ih]

def Noted (m m' : Machine) : Prop := ∃ journal, m' = { m with journal }

namespace Noted

variable {m m' m'' : Machine}

theorem refl (m : Machine) : Noted m m := ⟨m.journal, rfl⟩

theorem trans (h : Noted m m') (h' : Noted m' m'') : Noted m m'' := by
  obtain ⟨journal, rfl⟩ := h
  obtain ⟨journal', rfl⟩ := h'
  exact ⟨journal', rfl⟩

theorem counts (h : Noted m m') : m'.counts = m.counts := by
  obtain ⟨journal, rfl⟩ := h
  rfl

end Noted

section Steps

variable {st : Loading}

theorem bind_workspace {α : Type} (k : Workspace → Load α) :
    (workspace >>= k).run st = (k st.workspace).run st := rfl

theorem bind_report {α : Type} (e : ScriptError) (k : Unit → Load α) :
    (report e >>= k).run st = (k ()).run ⟨st.workspace, e :: st.errors⟩ := rfl

theorem bind_modifyWorkspace {α : Type} (f : Workspace → Workspace) (k : Unit → Load α) :
    (modifyWorkspace f >>= k).run st = (k ()).run ⟨f st.workspace, st.errors⟩ := rfl

theorem bind_of_run {α β : Type} {x : Load α} {a : α} {st' : Loading} (h : x.run st = (a, st'))
    (k : α → Load β) : (x >>= k).run st = (k a).run st' := by
  rw [StateT.run_bind, h]
  rfl

theorem note_context (w : Workspace) (severity : Severity) (message : String)
    (fields : List (String × Json)) : (w.note severity message fields).context = w.context := by
  unfold Workspace.note
  split
  · split <;> rfl
  · rfl

theorem declareField_finds (st : Loading) (script : String) (blocked names : List String) (f : FieldDecl) :
    ∃ es x w, (declareField script blocked names f).run st = (x, ⟨w, es.reverse ++ st.errors⟩) ∧
      w.context = st.workspace.context ∧
      Finds st.workspace.context st.workspace.machine script blocked names f es x w.machine := by
  cases hr : refuseField? st.workspace.catalogue script blocked names f with
  | error why =>
    refine ⟨_, none, st.workspace, ?_, rfl, .refused hr⟩
    simp [declareField, workspace, report, hr, refusal]
    rfl
  | ok type =>
    cases hd : f.default with
    | none =>
      refine ⟨_, _, st.workspace, ?_, rfl, .bare hr hd⟩
      simp [declareField, workspace, hr, hd]
      rfl
    | some j =>
      obtain ⟨⟨context, machine⟩, errors⟩ := st
      cases hx : checkDefault (context.catalogue.info type) j context machine with
      | ok _ m =>
        refine ⟨_, _, ⟨context, m⟩, ?_, rfl, .read hr hd hx⟩
        simp [declareField, workspace, run, Workspace.exec, Workspace.catalogue] at hr ⊢
        simp [hr, hd, hx]
        rfl
      | error e m =>
        refine ⟨_, _, ⟨context, m⟩, ?_, rfl, .unread hr hd hx⟩
        simp [declareField, workspace, run, report, Workspace.exec, Workspace.catalogue] at hr ⊢
        simp [hr, hd, hx, refusal, unreadable]
        rfl

theorem declareFields_finds (st : Loading) (script : String) (blocked names : List String)
    (fields : List FieldDecl) :
    ∃ es ms w, (declareFields script blocked names fields).run st = (ms, ⟨w, es.reverse ++ st.errors⟩) ∧
      w.context = st.workspace.context ∧
      FindsAll st.workspace.context script blocked st.workspace.machine names fields es ms w.machine := by
  induction fields generalizing names st with
  | nil => exact ⟨[], [], st.workspace, rfl, rfl, .nil _ names⟩
  | cons f fields ih =>
    obtain ⟨es, x, w, hrun, hcontext, hfound⟩ := declareField_finds st script blocked names f
    obtain ⟨es', ms, w', hrun', hcontext', hfound'⟩ :=
      ih ⟨w, es.reverse ++ st.errors⟩ (f.name :: names)
    refine ⟨es ++ es', x.toList ++ ms, w', ?_, hcontext'.trans hcontext, .cons hfound ?_⟩
    · simp only [StateT.run] at hrun hrun'
      simp [declareFields, StateT.run, bind, StateT.bind, hrun, hrun']
      rfl
    · rwa [hcontext] at hfound'

theorem note_machine (w : Workspace) (severity : Severity) (message : String)
    (fields : List (String × Json)) : Noted w.machine (w.note severity message fields).machine := by
  unfold Workspace.note
  split
  · split
    · exact ⟨_, rfl⟩
    · exact .refl _
  · exact .refl _

theorem register_machine (w : Workspace) (t : TypeInfo) : Noted w.machine (w.register t).2.machine := by
  unfold Workspace.register
  dsimp only
  split
  · exact note_machine _ _ _ _
  · exact .refl _

theorem register_context (w : Workspace) (t : TypeInfo) :
    (w.register t).1 = (w.catalogue.register t).1 ∧
      (w.register t).2.context = { w.context with catalogue := (w.catalogue.register t).2 } := by
  refine ⟨rfl, ?_⟩
  unfold Workspace.register
  dsimp only
  split
  · rw [note_context]
    rfl
  · rfl

theorem declareType_takes (st : Loading) (s : Script) (blocked : List String) :
    ∃ es h w c, (declareType s blocked).run st = (h, ⟨w, es.reverse ++ st.errors⟩) ∧
      w.context = { st.workspace.context with catalogue := c } ∧
      Takes st.workspace.context st.workspace.machine s blocked es h c w.machine := by
  obtain ⟨es, ms, w, hrun, hcontext, hfound⟩ := declareFields_finds st s.name blocked [] s.fields
  have hcatalogue : w.catalogue = st.workspace.catalogue := congrArg Context.catalogue hcontext
  obtain ⟨h, w', hregister⟩ : ∃ h w', w.register (typeOf st.workspace.catalogue s.name ms).1 = (h, w') :=
    ⟨_, _, rfl⟩
  obtain ⟨hhandle, hcontext'⟩ := register_context w (typeOf st.workspace.catalogue s.name ms).1
  rw [hregister, hcatalogue] at hhandle hcontext'
  rw [hcontext] at hcontext'
  obtain ⟨w'', hnote⟩ : ∃ w'', w'.note .debug "Declared script type" [("script", .str s.name),
    ("size", .nat (w'.catalogue.info h).layout.size),
    ("fields", .nat (w'.catalogue.info h).fields.length)] = w'' := ⟨_, rfl⟩
  have htakes : Takes st.workspace.context st.workspace.machine s blocked
      (es ++ (typeOf st.workspace.catalogue s.name ms).2)
      (st.workspace.catalogue.register (typeOf st.workspace.catalogue s.name ms).1).1
      (st.workspace.catalogue.register (typeOf st.workspace.catalogue s.name ms).1).2 w''.machine := by
    have hmachine := register_machine w (typeOf st.workspace.catalogue s.name ms).1
    rw [hregister] at hmachine
    obtain ⟨journal, hmachine⟩ := hmachine.trans (hnote ▸ note_machine _ _ _ _)
    rw [hmachine]
    exact .intro hfound journal
  rw [← hhandle] at htakes
  refine ⟨_, h, w'', _, ?_, ?_, htakes⟩
  rotate_left
  · rw [← hnote]
    exact (note_context _ _ _ _).trans hcontext'
  rw [← hnote]
  rw [declareType, bind_of_run hrun, bind_workspace]
  dsimp only
  rw [hcatalogue]
  cases hplace : Aggregate.place? st.workspace.catalogue ms with
  | some placed =>
    have htype : typeOf st.workspace.catalogue s.name ms =
        (Aggregate.info st.workspace.catalogue s.name placed.1 placed.2, []) := by rw [typeOf, hplace]
    rw [htype] at hregister ⊢
    dsimp only
    rw [pure_bind, bind_workspace]
    dsimp only
    rw [hregister, bind_modifyWorkspace, List.append_nil]
    rfl
  | none =>
    have htype : typeOf st.workspace.catalogue s.name ms =
        (Aggregate.info st.workspace.catalogue s.name Layout.empty [],
          [refusal s.name (overflow s.name)]) := by rw [typeOf, hplace]
    rw [htype] at hregister ⊢
    dsimp only
    rw [bind_report, pure_bind, bind_workspace]
    dsimp only
    rw [hregister, bind_modifyWorkspace, List.reverse_append, List.append_assoc]
    rfl

theorem declareTypes_takes (st : Loading) (fuel : Nat) (pending : List Candidate) :
    ∃ es hs w c, (declareTypes fuel pending).run st =
        (((rounds fuel pending).map (·.1.1)).zip hs, ⟨w, es.reverse ++ st.errors⟩) ∧
      w.context = { st.workspace.context with catalogue := c } ∧
      TakesAll st.workspace.context st.workspace.machine (rounds fuel pending) es hs c w.machine := by
  induction fuel generalizing pending st with
  | zero => exact ⟨[], [], st.workspace, st.workspace.context.catalogue, rfl, rfl, .nil _ _⟩
  | succ fuel ih =>
    cases pending with
    | nil => exact ⟨[], [], st.workspace, st.workspace.context.catalogue, rfl, rfl, .nil _ _⟩
    | cons first rest =>
      obtain ⟨s, blocked, hchoose⟩ : ∃ s blocked, choose first (first :: rest) = (s, blocked) := ⟨_, _, rfl⟩
      obtain ⟨es, h, w, c, hrun, hcontext, htakes⟩ := declareType_takes st s.2 blocked
      obtain ⟨es', hs, w', c', hrun', hcontext', hall⟩ :=
        ih ⟨w, es.reverse ++ st.errors⟩ ((first :: rest).filter (·.1 != s.1))
      dsimp only at hcontext' hall
      rw [hcontext] at hcontext' hall
      refine ⟨es ++ es', h :: hs, w', c', ?_, ?_, ?_⟩
      · rw [declareTypes, hchoose]
        dsimp only
        rw [bind_of_run hrun, bind_of_run hrun', rounds, hchoose, List.reverse_append, List.append_assoc]
        rfl
      · exact hcontext'
      · rw [rounds, hchoose]
        exact .cons htakes hall

theorem declareTypes_spec (st : Loading) (fuel : Nat) (pending : List Candidate) :
    ∃ es hs w c, (declareTypes fuel pending).run st =
        (((rounds fuel pending).map (·.1.1)).zip hs, ⟨w, es.reverse ++ st.errors⟩) ∧
      w.context = { st.workspace.context with catalogue := c } ∧
      DeclaresAll st.workspace.catalogue (rounds fuel pending) es hs c := by
  obtain ⟨es, hs, w, c, hrun, hcontext, htakes⟩ := declareTypes_takes st fuel pending
  exact ⟨es, hs, w, c, hrun, hcontext, htakes.declaresAll⟩

structure Outfits (c c' : Catalogue) : Prop where
  index : c'.index = c.index
  events : c'.events = c.events
  bare : c'.infos.map TypeInfo.clearFunctions = c.infos.map TypeInfo.clearFunctions

namespace Outfits

variable {c c' c'' : Catalogue}

theorem refl (c : Catalogue) : Outfits c c := ⟨rfl, rfl, rfl⟩

theorem trans (h : Outfits c c') (h' : Outfits c' c'') : Outfits c c'' :=
  ⟨h'.index.trans h.index, h'.events.trans h.events, h'.bare.trans h.bare⟩

theorem addFunction (c : Catalogue) (h : Handle) (f : Function) :
    Outfits c (c.modify h (·.addFunction f)) := by
  refine ⟨rfl, rfl, ?_⟩
  refine Array.ext (by simp [Catalogue.modify]) fun i hi hi' => ?_
  simp only [Catalogue.modify, Array.getElem_map, Array.getElem_modify]
  split <;> rfl

end Outfits

theorem report_all (st : Loading) (es : List ScriptError) :
    (es.forM report).run st = ((), ⟨st.workspace, es.reverse ++ st.errors⟩) := by
  induction es generalizing st with
  | nil => rfl
  | cons e es ih =>
    rw [show (e :: es).forM report = report e >>= fun _ => es.forM report from rfl, bind_report, ih,
      List.reverse_cons, List.append_assoc]
    rfl

def repeated (script function : String) : ScriptError :=
  (({ kind := .nameNotUnique, message := s!"function `{function}` is declared more than once" :
    ScriptError }).inScript script).inFunction function

theorem declareFunctions_spec (st : Loading) (worldType : String) (s : Script) (h : Handle)
    (names : List String) (gs : List Graph) :
    ∃ (es : List ScriptError) (bodies : List PendingBody) (w : Workspace),
      (declareFunctions worldType s h names gs).run st =
        (bodies, ⟨w, es.reverse ++ st.errors⟩) ∧
      Outfits st.workspace.catalogue w.catalogue ∧ ∀ e ∈ es, e.location.function.isSome := by
  induction gs generalizing names st with
  | nil => exact ⟨[], [], st.workspace, rfl, .refl _, List.forall_mem_nil _⟩
  | cons g gs ih =>
    rw [declareFunctions]
    split
    · obtain ⟨es, bodies, w, hrun, houtfits, hes⟩ :=
        ih ⟨st.workspace, repeated s.name g.name :: st.errors⟩ names
      refine ⟨repeated s.name g.name :: es, bodies, w, ?_, houtfits, List.forall_mem_cons.mpr ⟨rfl, hes⟩⟩
      rw [List.reverse_cons, List.append_assoc]
      exact hrun
    · rw [bind_workspace]
      dsimp only
      rw [bind_modifyWorkspace]
      obtain ⟨es, bodies, w, hrun, houtfits, hes⟩ := ih _ (g.name :: names)
      rw [bind_of_run hrun]
      exact ⟨es, _, w, rfl, (Outfits.addFunction _ h _).trans houtfits, hes⟩

theorem declareAll_spec (st : Loading) (worldType : String) (handles : List (Nat × Handle))
    (scripts : List Candidate) :
    ∃ (es : List ScriptError) (bodies : List PendingBody) (w : Workspace),
      (declareAll worldType handles scripts).run st =
        (bodies, ⟨w, es.reverse ++ st.errors⟩) ∧
      Outfits st.workspace.catalogue w.catalogue ∧ ∀ e ∈ es, e.location.function.isSome := by
  induction scripts generalizing st with
  | nil => exact ⟨[], [], st.workspace, rfl, .refl _, List.forall_mem_nil _⟩
  | cons s scripts ih =>
    rw [declareAll]
    cases handles.lookup s.1 with
    | none =>
      obtain ⟨es, bodies, w, hrun, houtfits, hes⟩ := ih st
      dsimp only
      rw [pure_bind, bind_of_run hrun]
      exact ⟨es, _, w, rfl, houtfits, hes⟩
    | some h =>
      obtain ⟨es, bodies, w, hrun, houtfits, hes⟩ := declareFunctions_spec st worldType s.2 h [] s.2.functions
      obtain ⟨es', bodies', w', hrun', houtfits', hes'⟩ := ih ⟨w, es.reverse ++ st.errors⟩
      dsimp only
      rw [bind_of_run hrun, bind_of_run hrun']
      refine ⟨es ++ es', bodies ++ bodies', w', ?_, houtfits.trans houtfits',
        List.forall_mem_append.mpr ⟨hes, hes'⟩⟩
      rw [List.reverse_append, List.append_assoc]
      rfl

theorem function_of_compile {g : Graph} {c : Catalogue} {s : Setting} {es : List ScriptError}
    (h : Program.compile g c s = .error (.errors es)) : ∀ e ∈ es, e.location.function.isSome := by
  have hwithin : ∀ e : ScriptError, (e.within s.script g.name).location.function.isSome := by
    intro e
    simp [ScriptError.within]
  unfold Program.compile at h
  split at h
  · cases h
  · split at h
    · cases h
    · rename_i failure _
      cases failure with
      | overrun | overflow => cases h
      | errors es' =>
        cases h
        intro e he
        obtain ⟨e', -, rfl⟩ := List.mem_map.mp he
        exact hwithin e'
  · rename_i hcollect
    cases h
    obtain ⟨-, rfl⟩ := Graph.collect?_eq_some_iff.mp hcollect
    intro e he
    obtain ⟨f, -, rfl⟩ := List.mem_map.mp he
    exact hwithin _

theorem compileBody_spec (st : Loading) (b : PendingBody) :
    ∃ (es : List ScriptError) (through : Bool) (w : Workspace),
      (compileBody b).run st = (through, ⟨w, es.reverse ++ st.errors⟩) ∧
      w.catalogue = st.workspace.catalogue ∧ ∀ e ∈ es, e.location.function.isSome := by
  rw [compileBody, bind_workspace]
  split
  · exact ⟨[], _, _, rfl, rfl, List.forall_mem_nil _⟩
  · rename_i es hcompile
    rw [bind_of_run (report_all st es)]
    exact ⟨es, true, _, rfl, rfl, function_of_compile hcompile⟩
  · exact ⟨[], _, _, rfl, rfl, List.forall_mem_nil _⟩
  · exact ⟨[], _, _, rfl, rfl, List.forall_mem_nil _⟩

theorem compileBodies_spec (st : Loading) (bodies : List PendingBody) :
    ∃ (es : List ScriptError) (through : Bool) (w : Workspace),
      (compileBodies bodies).run st = (through, ⟨w, es.reverse ++ st.errors⟩) ∧
      w.catalogue = st.workspace.catalogue ∧ ∀ e ∈ es, e.location.function.isSome := by
  induction bodies generalizing st with
  | nil => exact ⟨[], true, st.workspace, rfl, rfl, List.forall_mem_nil _⟩
  | cons b bodies ih =>
    obtain ⟨es, through, w, hrun, hcatalogue, hes⟩ := compileBody_spec st b
    rw [compileBodies, bind_of_run hrun]
    cases through with
    | false => exact ⟨es, false, w, rfl, hcatalogue, hes⟩
    | true =>
      obtain ⟨es', through, w', hrun', hcatalogue', hes'⟩ := ih ⟨w, es.reverse ++ st.errors⟩
      refine ⟨es ++ es', through, w', ?_, hcatalogue'.trans hcatalogue,
        List.forall_mem_append.mpr ⟨hes, hes'⟩⟩
      rw [List.reverse_append, List.append_assoc]
      exact hrun'

def accepted (c : Catalogue) (scripts : List Script) : List Candidate :=
  (screen c [] (numbered scripts)).1

def screened (c : Catalogue) (scripts : List Script) : List ScriptError :=
  (screen c [] (numbered scripts)).2

def schedule (c : Catalogue) (scripts : List Script) : List (Candidate × List String) :=
  rounds (accepted c scripts).length (accepted c scripts)

theorem build_spec (st : Loading) (worldType : String) (scripts : List Script) :
    ∃ (es fs : List ScriptError) (hs : List Handle) (c : Catalogue) (built : Built) (w : Workspace),
      (build worldType scripts).run st =
        (built, ⟨w, (screened st.workspace.catalogue scripts ++ es ++ fs).reverse ++ st.errors⟩) ∧
      DeclaresAll st.workspace.catalogue (schedule st.workspace.catalogue scripts) es hs c ∧
      Outfits c w.catalogue ∧ (∀ e ∈ fs, e.location.function.isSome) ∧
      built.types = hs.map fun h => (w.catalogue.info h).id := by
  obtain ⟨es, hs, w, c, hrun, hcontext, hdeclares⟩ := declareTypes_spec
    ⟨st.workspace, (screened st.workspace.catalogue scripts).reverse ++ st.errors⟩
    (accepted st.workspace.catalogue scripts).length (accepted st.workspace.catalogue scripts)
  obtain ⟨fs, bodies, w', hrun', houtfits, hfs⟩ := declareAll_spec
    ⟨w, es.reverse ++ ((screened st.workspace.catalogue scripts).reverse ++ st.errors)⟩ worldType
    (((schedule st.workspace.catalogue scripts).map (·.1.1)).zip hs) (numbered scripts)
  obtain ⟨fs', through, w'', hrun'', hcatalogue, hfs'⟩ := compileBodies_spec
    ⟨w', fs.reverse ++ (es.reverse ++ ((screened st.workspace.catalogue scripts).reverse ++ st.errors))⟩ bodies
  have hdeclared : w.catalogue = c := congrArg Context.catalogue hcontext
  have htypes : (((schedule st.workspace.catalogue scripts).map (·.1.1)).zip hs).map
      (fun p => (w''.catalogue.info p.2).id) = hs.map fun h => (w''.catalogue.info h).id := by
    have hlength : hs.length ≤ ((schedule st.workspace.catalogue scripts).map (·.1.1)).length := by
      rw [List.length_map, hdeclares.length_eq, schedule]
    have hzip := congrArg (List.map fun h => (w''.catalogue.info h).id) (List.map_snd_zip hlength)
    rwa [List.map_map] at hzip
  refine ⟨es, fs ++ fs', hs, c, ⟨hs.map fun h => (w''.catalogue.info h).id, bodies.map (·.number), through⟩,
    w'', ?_, hdeclares, ?_, List.forall_mem_append.mpr ⟨hfs, hfs'⟩, rfl⟩
  · rw [build, bind_workspace]
    dsimp only
    rw [show screen st.workspace.catalogue [] (scripts.zipIdx.map fun p => (p.2, p.1)) =
      (accepted st.workspace.catalogue scripts, screened st.workspace.catalogue scripts) from rfl]
    dsimp only
    rw [bind_of_run (report_all _ _), bind_of_run hrun]
    rw [schedule] at hrun'
    rw [numbered] at hrun'
    rw [bind_of_run hrun', bind_of_run hrun'', bind_workspace]
    simp only [List.reverse_append, List.append_assoc, ← htypes]
    rfl
  · rw [hcatalogue, ← hdeclared]
    exact houtfits

end Steps

end Flowscript.Loader
