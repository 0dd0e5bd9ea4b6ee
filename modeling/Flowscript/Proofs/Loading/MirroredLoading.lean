import Flowscript.Proofs.Loading.DefaultConstructors
import Flowscript.Proofs.Loading.RenumberedCompilation

/-! # Loading in two places

The same scripts are declared and compiled in a workspace and in one that mirrors it. Step by step the
same errors are found, and the workspaces go on mirroring each other.
-/
namespace Flowscript

structure Context.Mirrors (k₀ : Context) (gap : Gap) (k k' : Context) : Prop where
  catalogue : k₀.catalogue.Mirrors gap k.catalogue k'.catalogue
  firstBody : gap.firstBody = k₀.bodies.size
  firstBody_le : k₀.bodies.size ≤ k.bodies.size
  count : k'.bodies.size = k.bodies.size + gap.bodies
  knownBody : ∀ n < k₀.bodies.size, k.bodies[n]? = k₀.bodies[n]? ∧ k'.bodies[n]? = k₀.bodies[n]?
  movedBody : ∀ n, k₀.bodies.size ≤ n → k'.bodies[n + gap.bodies]? = (k.bodies[n]?).map gap.moves.scriptBody

namespace Catalogue

variable {c₀ c : Catalogue}

theorem Mirrors.outgrows {gap : Gap} {c' : Catalogue} (hc₀ : c₀.Filed) (h : c₀.Mirrors gap c c') :
    c₀.Outgrows c ∧ c₀.Outgrows c' := by
  have hsize := h.size
  have hfirst := h.first_le
  have hget : ∀ (d : Catalogue), c₀.infos.size ≤ d.infos.size →
    (∀ k < c₀.infos.size, d.info k = c₀.info k) →
      ∀ (k : Handle) (t : TypeInfo), c₀.infos[k]? = some t → d.infos[k]? = some t := by
    intro d hle hinfo k t ht
    have hlt := (Array.getElem?_eq_some_iff.mp ht).choose
    obtain ⟨u, hu⟩ : ∃ u, d.infos[k]? = some u := ⟨_, Array.getElem?_eq_getElem (hlt.trans_le hle)⟩
    rw [hu, ← info_of_getElem? hu, hinfo k hlt, info_of_getElem? ht]
  constructor
  · exact ⟨⟨h.kept, hget c hfirst fun k hk => (h.known k hk).1⟩, h.filed, h.fresh,
      fun _ k _ hk => h.bare k hk, h.events.1⟩
  · have hhandle : ∀ id k, c'.handle? id = some k →
        c₀.handle? id = some k ∨ ∃ j, c₀.infos.size ≤ j ∧ k = j + gap.types := by
      intro id k hk
      rw [h.handle] at hk
      obtain ⟨j, hj, rfl⟩ := Option.map_eq_some_iff.mp hk
      rcases h.fresh id j hj with hold | hle
      · rw [Gap.handle_of_lt (h.first ▸ hc₀.lt_size hold)]
        exact .inl hold
      · rw [Gap.handle_of_le (h.first ▸ hle)]
        exact .inr ⟨j, hle, rfl⟩
    refine ⟨⟨fun id k hk => ?_, hget c' (by omega) fun k hk => (h.known k hk).2⟩, h.filed', fun id k hk => ?_,
      fun id k hk hle => ?_, h.events.2⟩
    · rw [h.handle, h.kept id k hk, Option.map_some, Gap.handle_of_lt (h.first ▸ hc₀.lt_size hk)]
    · rcases hhandle id k hk with hold | ⟨j, hj, rfl⟩
      · exact .inl hold
      · exact .inr (by omega)
    · rcases hhandle id k hk with hold | ⟨j, hj, rfl⟩
      · exact absurd (hc₀.lt_size hold) (Nat.not_lt.mpr hle)
      · rw [h.moved j hj]
        exact h.bare j hj

end Catalogue

/-- Types with which defaults are read: registered ones whose values may be constructed for that, and those of
scripts that came later. -/
def Completing (c₀ : Catalogue) (scripts : List Script) (c : Catalogue) (h : Handle) : Prop :=
  Constructs c₀ scripts h ∨
    c₀.infos.size ≤ h ∧ h < c.infos.size ∧ Reads c₀ scripts (c.info h).name

structure Context.Declaring (k₀ : Context) (scripts : List Script) (gap : Gap) (k k' : Context) : Prop extends
    k₀.Mirrors gap k k' where
  composed : ∀ h, k₀.catalogue.infos.size ≤ h → ∀ key, ∀ f ∈ (k.catalogue.info h).overloads key,
    ¬ f.body.IsForeign
  within : ∀ h, k₀.catalogue.infos.size ≤ h → Reads k₀.catalogue scripts (k.catalogue.info h).name →
    (k.catalogue.info h).Within (Completing k₀.catalogue scripts k.catalogue) fun _ => True

namespace Context

variable {k₀ k k' : Context} {scripts : List Script} {gap : Gap}

theorem Mirrors.outgrows (hc₀ : k₀.catalogue.Filed) (h : k₀.Mirrors gap k k') :
    k₀.Outgrows k ∧ k₀.Outgrows k' := by
  obtain ⟨hleft, hright⟩ := h.catalogue.outgrows hc₀
  have hcount := h.count
  have hfirst := h.firstBody_le
  exact ⟨⟨hleft, hfirst, fun n hn => (h.knownBody n hn).1⟩,
    ⟨hright, by omega, fun n hn => (h.knownBody n hn).2⟩⟩

theorem Mirrors.addBody (h : k₀.Mirrors gap k k') {type : Nat} (htype : k₀.catalogue.infos.size ≤ type)
    (f : Function) (name : String) :
    k₀.Mirrors gap
      { k with
        catalogue := k.catalogue.modify type (·.addFunction f), bodies := k.bodies.push { name } }
      { k' with
        catalogue := k'.catalogue.modify (type + gap.types) (·.addFunction (gap.moves.function f))
        bodies := k'.bodies.push { name } } := by
  have hfirst := h.firstBody_le
  have hcount := h.count
  constructor
  · exact h.catalogue.addFunction htype f
  · exact h.firstBody
  · rw [Array.size_push]
    omega
  · rw [Array.size_push, Array.size_push]
    omega
  · intro n hn
    obtain ⟨hknown, hknown'⟩ := h.knownBody n hn
    rw [Array.getElem?_push, Array.getElem?_push, if_neg (by omega), if_neg (by omega)]
    exact ⟨hknown, hknown'⟩
  · intro n hn
    have hlast : n + gap.bodies = k'.bodies.size ↔ n = k.bodies.size := by omega
    rw [Array.getElem?_push, Array.getElem?_push, ite_congr (propext hlast) (fun _ => rfl) fun _ => rfl,
      h.movedBody n hn]
    split <;> rfl

theorem Mirrors.settleBody (h : k₀.Mirrors gap k k') {number : Nat} (hnumber : k₀.bodies.size ≤ number)
    (state : BodyState) :
    k₀.Mirrors gap
      { k with bodies := k.bodies.modify number fun b => { b with state } }
      { k' with
        bodies := k'.bodies.modify (number + gap.bodies) fun b => { b with state := gap.moves.state state } } := by
  constructor
  · exact h.catalogue
  · exact h.firstBody
  · rw [Array.size_modify]
    exact h.firstBody_le
  · rw [Array.size_modify, Array.size_modify]
    exact h.count
  · intro n hn
    obtain ⟨hknown, hknown'⟩ := h.knownBody n hn
    rw [Array.getElem?_modify, Array.getElem?_modify, if_neg (by omega), if_neg (by omega)]
    exact ⟨hknown, hknown'⟩
  · intro n hn
    have hsame : number + gap.bodies = n + gap.bodies ↔ number = n := by omega
    rw [Array.getElem?_modify, Array.getElem?_modify, ite_congr (propext hsame) (fun _ => rfl) fun _ => rfl,
      h.movedBody n hn]
    split
    · cases k.bodies[n]? <;> rfl
    · rfl

section Declaring

variable {w : Workspace}

theorem Declaring.agrees (hw : w.Reliable scripts) (h : w.context.Declaring scripts gap k k') :
    k.catalogue.Agrees (Completing w.catalogue scripts k.catalogue) gap.moves k'.catalogue where
  within j hj := by
    rcases hj with hold | ⟨hle, -, hread⟩
    · rw [(h.catalogue.known j (hold.involves.lt_size hw.filed hw.closed)).1]
      exact hold.involves.within.mono (fun _ => .inl) fun _ => id
    · exact h.within j hle hread
  same j _ := h.catalogue.info j

theorem Declaring.repeats (hw : w.Reliable scripts) (h : w.context.Declaring scripts gap k k') (depth : Nat) :
    (invokeWithin depth).Repeats w.machine (Completing w.catalogue scripts k.catalogue) gap.moves k k' := by
  obtain ⟨hk, hk'⟩ := h.toMirrors.outgrows hw.filed
  have hcases : ∀ j f, Completing w.catalogue scripts k.catalogue j →
      (k.catalogue.info j).resolve (.operator .construct) [] = .ok f → f.body.IsForeign →
        Constructs w.catalogue scripts j := by
    rintro j f (hold | ⟨hle, -, -⟩) hf hforeign
    · exact hold
    · exact absurd hforeign (h.composed j hle _ f (TypeInfo.mem_of_resolve hf))
  have hinfo : ∀ j, Constructs w.catalogue scripts j → k.catalogue.info j = w.catalogue.info j := fun j hj =>
    (h.catalogue.known j (hj.involves.lt_size hw.filed hw.closed)).1
  refine repeats_of_steady hk hk' (h.agrees hw) (fun j hj f hf hforeign => ?_) (fun j f hj hf hforeign => ?_) depth
  · have hold := hcases j f hj hf hforeign
    exact hw.steady j hold f (hinfo j hold ▸ hf) hforeign
  · have hold := hcases j f hj hf hforeign
    rw [hinfo j hold] at hf
    have hlt := hold.involves.lt_size hw.filed hw.closed
    exact Renumbering.function_of_within (fun _ hi => Gap.handle_of_lt (h.catalogue.first ▸ hi))
      (fun _ hn => Gap.number_of_lt (h.firstBody ▸ hn)) ((hw.closed j hlt).overloads (TypeInfo.mem_of_resolve hf))

theorem Declaring.sameField (hw : w.Reliable scripts) (h : w.context.Declaring scripts gap k k') {s : Script}
    (hs : s ∈ scripts) (hnew : w.catalogue.contains s.type = false) {f : FieldDecl} (hf : f ∈ s.fields) :
    Loader.SameField k k' (Completing w.catalogue scripts k.catalogue) gap.moves f where
  handle := h.catalogue.renames.handleNamed?_eq f.type
  same j _ := h.catalogue.info j
  read hdefault j hj := by
    have hread : Reads w.catalogue scripts f.type := .default hs hnew hf hdefault
    rcases (h.toMirrors.outgrows hw.filed).1.catalogue.handleNamed?_cases hw.filed hj with hold | ⟨hle, -, hname⟩
    · have hinvolves : Involves w.catalogue scripts j := .named hread hold
      rw [(h.catalogue.known j (hinvolves.lt_size hw.filed hw.closed)).1]
      exact (hinvolves.within.mono (fun _ => .inl) fun _ => id).codec
    · exact (h.within j hle (hname ▸ hread)).codec

/-- A type is registered that has composed functions only, and if defaults are read with it, is made of types with
which they are. -/
theorem Declaring.register (h : w.context.Declaring scripts gap k k') {t : TypeInfo} (hbases : t.bases = [])
    (hid : t.id = .ofName t.name) (hnew : w.catalogue.handle? t.id = none)
    (hcomposed : ∀ key, ∀ f ∈ t.overloads key, ¬ f.body.IsForeign)
    (hwithin : Reads w.catalogue scripts t.name →
      t.Within (Completing w.catalogue scripts k.catalogue) fun _ => True) :
    (k'.catalogue.register (gap.moves.type t)).1 = gap.moves.handle (k.catalogue.register t).1 ∧
      w.catalogue.infos.size ≤ (k.catalogue.register t).1 ∧
      w.context.Declaring scripts gap { k with catalogue := (k.catalogue.register t).2 }
        { k' with catalogue := (k'.catalogue.register (gap.moves.type t)).2 } := by
  obtain ⟨hhandle, hcatalogue⟩ := h.catalogue.register hbases hid
  have hmirrors : w.context.Mirrors gap { k with catalogue := (k.catalogue.register t).2 }
      { k' with catalogue := (k'.catalogue.register (gap.moves.type t)).2 } :=
    ⟨hcatalogue, h.firstBody, h.firstBody_le, h.count, h.knownBody, h.movedBody⟩
  refine ⟨hhandle, ?_⟩
  cases hh : k.catalogue.handle? t.id with
  | some i =>
    rw [Catalogue.register_of_taken hh] at hmirrors ⊢
    refine ⟨(h.catalogue.fresh t.id i hh).resolve_left fun hold => ?_, hmirrors, h.composed, h.within⟩
    rw [show w.context.catalogue = w.catalogue from rfl, hnew] at hold
    cases hold
  | none =>
    obtain ⟨u, hu⟩ : ∃ u, Catalogue.withHeirs ((k.catalogue.grow t).heirs t.id) t = u := ⟨_, rfl⟩
    have hregister := Catalogue.register_eq_grow hbases hh
    rw [hu] at hregister
    rw [hregister] at hmirrors ⊢
    have hinfo := Catalogue.info_grow k.catalogue u
    have hname : u.name = t.name := hu ▸ (Catalogue.face_withHeirs _ t).2.1
    have hmono : ∀ j, Completing w.catalogue scripts k.catalogue j →
        Completing w.catalogue scripts (k.catalogue.grow u) j := by
      rintro j (hold | ⟨hle, hlt, hread⟩)
      · exact .inl hold
      · refine .inr ⟨hle, hlt.trans ?_, ?_⟩
        · simp [Catalogue.grow]
        · rwa [hinfo, if_neg hlt.ne]
    refine ⟨h.catalogue.first_le, hmirrors, fun j hj key f hf => ?_, fun j hj hread => ?_⟩
    · have hf : f ∈ ((k.catalogue.grow u).info j).overloads key := hf
      rw [hinfo] at hf
      split at hf
      · rw [← hu, Catalogue.overloads_withHeirs] at hf
        exact hcomposed key f hf
      · exact h.composed j hj key f hf
    · have hread : Reads w.catalogue scripts ((k.catalogue.grow u).info j).name := hread
      show ((k.catalogue.grow u).info j).Within (Completing w.catalogue scripts (k.catalogue.grow u)) _
      rw [hinfo] at hread ⊢
      split
      · next hlast =>
        rw [if_pos hlast, hname] at hread
        rw [← hu]
        exact (hu ▸ (hwithin hread).mono hmono fun _ => id : t.Within _ _).withHeirs _
      · next hlast =>
        rw [if_neg hlast] at hread
        exact (h.within j hj hread).mono hmono fun _ => id

end Declaring

end Context

namespace Loader

variable {α α' β β' ε : Type} {J : Context → Context → Prop}

/-- Two computations, from related contexts and the same errors on, have related results and lead to
related contexts and the same errors. -/
def Abreast (J : Context → Context → Prop) (R : α → α' → Prop) (x : Load α) (y : Load α') : Prop :=
  ∀ st st' : Loading, J st.workspace.context st'.workspace.context → st'.errors = st.errors →
    R (x.run st).1 (y.run st').1 ∧
      J (x.run st).2.workspace.context (y.run st').2.workspace.context ∧
      (y.run st').2.errors = (x.run st).2.errors

namespace Abreast

variable {R : α → α' → Prop} {S : β → β' → Prop} {x : Load α} {y : Load α'}

theorem pure {a : α} {a' : α'} (h : R a a') : Abreast J R (Pure.pure a) (Pure.pure a') :=
  fun _ _ hJ he => ⟨h, hJ, he⟩

theorem bind {f : α → Load β} {f' : α' → Load β'} (h : Abreast J R x y)
    (hf : ∀ a a', R a a' → Abreast J S (f a) (f' a')) : Abreast J S (x >>= f) (y >>= f') := by
  intro st st' hJ he
  obtain ⟨hR, hJ', he'⟩ := h st st' hJ he
  rw [StateT.run_bind, StateT.run_bind]
  exact hf _ _ hR _ _ hJ' he'

theorem report (e : ScriptError) : Abreast J Eq (report e) (report e) :=
  fun _ _ hJ he => ⟨rfl, hJ, congrArg (e :: ·) he⟩

theorem reportAll (es : List ScriptError) : Abreast J Eq (es.forM Loader.report) (es.forM Loader.report) := by
  induction es with
  | nil => exact .pure rfl
  | cons e es ih => exact (Abreast.report e).bind fun _ _ _ => ih

theorem workspace : Abreast J (fun w w' => J w.context w'.context) workspace workspace :=
  fun _ _ hJ he => ⟨hJ, hJ, he⟩

theorem modifyWorkspace {f f' : Workspace → Workspace}
    (h : ∀ w w', J w.context w'.context → J (f w).context (f' w').context) :
    Abreast J Eq (modifyWorkspace f) (modifyWorkspace f') := fun _ _ hJ he => ⟨rfl, h _ _ hJ, he⟩

end Abreast

variable {k₀ : Context} {gap : Gap}

section Declarations

variable {k k' : Context} {w : Workspace} {scripts : List Script}

variable {m m' m₁ m₁' : Machine}

theorem Takes.mirrored (hw : w.Reliable scripts) (h : w.context.Declaring scripts gap k k')
    (hm : w.machine.Comparable m) (hm' : w.machine.Comparable m') {s : Script} (hs : s ∈ scripts)
    (hnew : w.catalogue.contains s.type = false) {blocked : List String} {es es' : List ScriptError}
    {i i' : Handle} {c c' : Catalogue} (ht : Takes k m s blocked es i c m₁)
    (ht' : Takes k' m' s blocked es' i' c' m₁') :
    es' = es ∧ i' = gap.moves.handle i ∧ w.catalogue.infos.size ≤ i ∧
      w.context.Declaring scripts gap { k with catalogue := c } { k' with catalogue := c' } := by
  cases ht with
  | @intro es ms _ found =>
    cases ht' with
    | @intro es' ms' _ found' =>
      obtain ⟨rfl, rfl, hms⟩ := found.alike (h.agrees hw) (h.repeats hw callDepth) hm hm'
        (fun f hf => h.sameField hw hs hnew hf) found'
      obtain ⟨hid, hname, hbases⟩ := typeOf_eq k.catalogue s.name ms
      have hregister := h.register (t := (typeOf k.catalogue s.name ms).1) hbases (by rw [hid, hname])
        (by rwa [hid, ← Option.isNone_iff_eq_none, ← Option.isSome_eq_false_iff, ← Catalogue.contains_eq])
        (fun key f hf hforeign => ?_) (fun hread => within_typeOf s.name fun y hy => ?_)
      · rw [typeOf_renumbered s.name fun y _ => h.catalogue.info y.type]
        exact ⟨rfl, hregister⟩
      · obtain ⟨entry, hentry, hf⟩ := TypeInfo.mem_functions_of_overloads hf
        obtain ⟨op, whole, hbody, -⟩ := body_of_mem_typeOf hentry hf
        rw [hbody] at hforeign
        exact hforeign
      · obtain ⟨f, hf, hnamed⟩ := hms y hy
        rw [hname] at hread
        have hcompleting : Completing w.catalogue scripts k.catalogue y.type := by
          rcases (h.toMirrors.outgrows hw.filed).1.catalogue.handleNamed?_cases hw.filed hnamed with
            hold | ⟨hle, hlt, hsame⟩
          · exact .inl (.member hs hnew hread hf hold)
          · exact .inr ⟨hle, hlt, hsame ▸ .field hs hnew hread hf⟩
        exact ⟨hcompleting, ((h.agrees hw).within _ hcompleting).codec⟩

theorem TakesAll.mirrored (hw : w.Reliable scripts) {plan : List (Candidate × List String)}
    (hplan : ∀ r ∈ plan, r.1.2 ∈ scripts ∧ w.catalogue.contains r.1.2.type = false)
    (h : w.context.Declaring scripts gap k k') (hm : w.machine.Comparable m) (hm' : w.machine.Comparable m')
    {es es' : List ScriptError} {hs hs' : List Handle} {c c' : Catalogue} (ht : TakesAll k m plan es hs c m₁)
    (ht' : TakesAll k' m' plan es' hs' c' m₁') :
    es' = es ∧ hs' = hs.map gap.moves.handle ∧ (∀ i ∈ hs, w.catalogue.infos.size ≤ i) ∧
      w.context.Declaring scripts gap { k with catalogue := c } { k' with catalogue := c' } := by
  induction ht generalizing k' m' es' hs' with
  | nil =>
    cases ht'
    exact ⟨rfl, rfl, List.forall_mem_nil _, h⟩
  | cons first _ ih =>
    obtain ⟨⟨hs, hnew⟩, hplan⟩ := List.forall_mem_cons.mp hplan
    cases ht' with
    | cons first' rest' =>
      obtain ⟨rfl, rfl, hlater, hnext⟩ := first.mirrored hw h hm hm' hs hnew first'
      obtain ⟨rfl, rfl, hall, hlast⟩ := ih hplan hnext (hm.trans first.comparable) (hm'.trans first'.comparable)
        rest'
      exact ⟨rfl, rfl, List.forall_mem_cons.mpr ⟨hlater, hall⟩, hlast⟩

/-- Handles by position that lead to types which came later. -/
def SameHandles (k₀ : Context) (gap : Gap) (hs hs' : List (Nat × Handle)) : Prop :=
  hs' = hs.map (fun p => (p.1, gap.moves.handle p.2)) ∧ ∀ p ∈ hs, k₀.catalogue.infos.size ≤ p.2

end Declarations

section Functions

/-- A declared function at its number in the other workspace. -/
def moveBody (gap : Gap) (b : PendingBody) : PendingBody := { b with number := gap.moves.number b.number }

def SameBodies (k₀ : Context) (gap : Gap) (bs bs' : List PendingBody) : Prop :=
  bs' = bs.map (moveBody gap) ∧ ∀ b ∈ bs, k₀.bodies.size ≤ b.number

theorem SameBodies.append {bs bs' ds ds' : List PendingBody} (h : SameBodies k₀ gap bs bs')
    (hd : SameBodies k₀ gap ds ds') : SameBodies k₀ gap (bs ++ ds) (bs' ++ ds') := by
  obtain ⟨rfl, hnumbers⟩ := h
  obtain ⟨rfl, hnumbers'⟩ := hd
  exact ⟨List.map_append.symm, List.forall_mem_append.mpr ⟨hnumbers, hnumbers'⟩⟩

theorem abreast_declareFunctions (worldType : String) (s : Script) {h : Nat}
    (hnew : k₀.catalogue.infos.size ≤ h) (names : List String) (gs : List Graph) :
    Abreast (k₀.Mirrors gap) (SameBodies k₀ gap) (declareFunctions worldType s h names gs)
      (declareFunctions worldType s (gap.moves.handle h) names gs) := by
  induction gs generalizing names with
  | nil => exact .pure ⟨rfl, List.forall_mem_nil _⟩
  | cons g gs ih =>
    rw [declareFunctions, declareFunctions]
    split
    · exact (Abreast.report _).bind fun _ _ _ => ih names
    · refine Abreast.workspace.bind fun w w' hw => ?_
      have hc : k₀.catalogue.Mirrors gap w.catalogue w'.catalogue := hw.catalogue
      have hnumber : w'.context.bodies.size = gap.moves.number w.context.bodies.size := by
        rw [Gap.number_of_le (hw.firstBody ▸ hw.firstBody_le), hw.count]
      have htype : (w'.catalogue.info (gap.moves.handle h)).id = (w.catalogue.info h).id := by
        rw [hc.info, Renumbering.id_type]
      dsimp only
      rw [hnumber, htype, Gap.handle_of_le (hc.first ▸ hnew)]
      refine (Abreast.modifyWorkspace fun v v' hv => hv.addBody hnew _ _).bind fun _ _ _ => ?_
      rw [← Gap.handle_of_le (hc.first ▸ hnew)]
      refine (ih (g.name :: names)).bind ?_
      rintro bs _ ⟨rfl, hnumbers⟩
      exact .pure ⟨rfl, List.forall_mem_cons.mpr ⟨hw.firstBody_le, hnumbers⟩⟩

theorem abreast_declareAll (worldType : String) {hs hs' : List (Nat × Handle)}
    (hsame : SameHandles k₀ gap hs hs') (scripts : List Candidate) :
    Abreast (k₀.Mirrors gap) (SameBodies k₀ gap) (declareAll worldType hs scripts)
      (declareAll worldType hs' scripts) := by
  obtain ⟨rfl, hnew⟩ := hsame
  induction scripts with
  | nil => exact .pure ⟨rfl, List.forall_mem_nil _⟩
  | cons s scripts ih =>
    rw [declareAll, declareAll, lookup_map gap.moves.handle]
    cases hlookup : hs.lookup s.1 with
    | none =>
      exact ih.bind fun ds ds' hds => .pure hds
    | some h =>
      obtain ⟨before, after, rfl, -⟩ := List.lookup_eq_some_iff.mp hlookup
      have hh := hnew (s.1, h) (List.mem_append_right before List.mem_cons_self)
      exact (abreast_declareFunctions worldType s.2 hh [] s.2.functions).bind
        fun bs bs' hbs => ih.bind fun ds ds' hds => .pure (hbs.append hds)

theorem abreast_compileBody {b : PendingBody} (hb : k₀.bodies.size ≤ b.number) :
    Abreast (k₀.Mirrors gap) Eq (compileBody b) (compileBody (moveBody gap b)) := by
  refine Abreast.workspace.bind fun w w' hw => ?_
  have hc : k₀.catalogue.Mirrors gap w.catalogue w'.catalogue := hw.catalogue
  have hsettle : ∀ state, Abreast (k₀.Mirrors gap) Eq (settleBody b.number state)
      (settleBody (gap.moves.number b.number) (gap.moves.state state)) := by
    intro state
    rw [Gap.number_of_le (hw.firstBody ▸ hb)]
    exact Abreast.modifyWorkspace fun v v' hv => hv.settleBody hb state
  dsimp only [moveBody]
  rw [Program.compile_renumbered hc.renames]
  cases Program.compile b.graph w.catalogue b.setting with
  | ok p => exact (hsettle (.ready p)).bind fun _ _ _ => .pure rfl
  | error failure =>
    cases failure with
    | errors errors =>
      exact (Abreast.reportAll errors).bind fun _ _ _ =>
        (hsettle (.failed (reason errors))).bind fun _ _ _ => .pure rfl
    | overrun | overflow => exact .pure rfl

theorem abreast_compileBodies {bs : List PendingBody} (hbs : ∀ b ∈ bs, k₀.bodies.size ≤ b.number) :
    Abreast (k₀.Mirrors gap) Eq (compileBodies bs) (compileBodies (bs.map (moveBody gap))) := by
  induction bs with
  | nil => exact .pure rfl
  | cons b bs ih =>
    obtain ⟨hb, hbs⟩ := List.forall_mem_cons.mp hbs
    refine (abreast_compileBody hb).bind ?_
    rintro through _ rfl
    cases through with
    | true => exact ih hbs
    | false => exact .pure rfl

end Functions

theorem screen_renumbered {c c' : Catalogue} {σ : Renumbering} (h : c.Renames σ c') (names : List String)
    (candidates : List Candidate) : screen c' names candidates = screen c names candidates := by
  induction candidates generalizing names with
  | nil => rfl
  | cons s rest ih => rw [screen, screen, ih, h.contains_eq]

structure SameBuilt (k₀ : Context) (gap : Gap) (b b' : Built) : Prop where
  types : b'.types = b.types
  bodies : b'.bodies = b.bodies.map gap.moves.number
  through : b'.through = b.through
  later : ∀ n ∈ b.bodies, k₀.bodies.size ≤ n

theorem build_mirrored {w : Workspace} {scripts : List Script} (hw : w.Reliable scripts) (worldType : String)
    (st st' : Loading) (h : w.context.Declaring scripts gap st.workspace.context st'.workspace.context)
    (hm : w.machine.Comparable st.workspace.machine) (hm' : w.machine.Comparable st'.workspace.machine)
    (he : st'.errors = st.errors) :
    SameBuilt w.context gap ((build worldType scripts).run st).1 ((build worldType scripts).run st').1 ∧
      w.context.Mirrors gap ((build worldType scripts).run st).2.workspace.context
        ((build worldType scripts).run st').2.workspace.context ∧
      ((build worldType scripts).run st').2.errors = ((build worldType scripts).run st).2.errors := by
  have hc : w.catalogue.Mirrors gap st.workspace.catalogue st'.workspace.catalogue := h.catalogue
  have hplan : ∀ r ∈ schedule st.workspace.catalogue scripts,
      r.1.2 ∈ scripts ∧ w.catalogue.contains r.1.2.type = false := by
    intro r hr
    have haccepted := (schedule_perm st.workspace.catalogue scripts).mem_iff.mp (List.mem_map_of_mem hr)
    refine ⟨script_of_numbered (mem_accepted_numbered haccepted), ?_⟩
    rw [Catalogue.contains_eq, Option.isSome_eq_false_iff, Option.isNone_iff_eq_none]
    by_contra hsome
    obtain ⟨j, hj⟩ := Option.ne_none_iff_exists'.mp hsome
    have hnot := handle?_of_mem_schedule hr
    rw [hc.kept _ _ hj] at hnot
    cases hnot
  rw [build, bind_workspace, bind_workspace]
  dsimp only
  rw [screen_renumbered hc.renames, bind_of_run (report_all _ _), bind_of_run (report_all _ _), he]
  obtain ⟨es, hs, v, c, hrun, hcontext, htakes⟩ := declareTypes_takes
    ⟨st.workspace, (screened st.workspace.catalogue scripts).reverse ++ st.errors⟩
    (accepted st.workspace.catalogue scripts).length (accepted st.workspace.catalogue scripts)
  obtain ⟨es', hs', v', c', hrun', hcontext', htakes'⟩ := declareTypes_takes
    ⟨st'.workspace, (screened st.workspace.catalogue scripts).reverse ++ st.errors⟩
    (accepted st.workspace.catalogue scripts).length (accepted st.workspace.catalogue scripts)
  obtain ⟨rfl, rfl, hlater, hdeclared⟩ := htakes.mirrored hw hplan h hm hm' htakes'
  have hsame : SameHandles w.context gap
      (((schedule st.workspace.catalogue scripts).map (·.1.1)).zip hs)
      (((schedule st.workspace.catalogue scripts).map (·.1.1)).zip (hs.map gap.moves.handle)) :=
    ⟨List.zip_map_right .., fun p hp => hlater p.2 (List.of_mem_zip hp).2⟩
  rw [← hcontext, ← hcontext'] at hdeclared
  refine (bind_of_run hrun _).symm ▸ (bind_of_run hrun' _).symm ▸ ?_
  refine ((abreast_declareAll worldType hsame _).bind ?_) _ _ hdeclared.toMirrors rfl
  rintro bs _ ⟨rfl, hbs⟩
  refine (abreast_compileBodies hbs).bind ?_
  rintro through _ rfl
  refine Abreast.workspace.bind fun w w' hw => .pure ?_
  have hid : ∀ k, (w'.catalogue.info (gap.moves.handle k)).id = (w.catalogue.info k).id := by
    intro k
    rw [show w'.catalogue.info (gap.moves.handle k) = gap.moves.type (w.catalogue.info k) from hw.catalogue.info k]
    rfl
  rw [List.zip_map_right]
  constructor
  · simp only [List.map_map]
    exact List.map_congr_left fun p _ => hid p.2
  · simp only [List.map_map]
    rfl
  · rfl
  · exact List.forall_mem_map.mpr hbs

end Loader

end Flowscript
