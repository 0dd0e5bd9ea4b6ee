import Flowscript.Proofs.Loading.ContextGrowth
import Flowscript.Proofs.Loading.RenumberedCompilation
import Flowscript.Proofs.Loading.RepeatedDefaults

/-! # What defaults are read with

A default is read as a value of the type of its field. What it leaves out is constructed, part by part, which
may call functions of the host and of scripts that were registered before. Everything else that is done to
declare a script is the same wherever the types that its fields name are the same.
-/
namespace Flowscript

def Body.IsForeign : Body → Prop
  | .host _ | .script _ => True
  | .native .. | .aggregate .. => False

def TypeInfo.Mentions (t : TypeInfo) (h : Handle) : Prop := ¬ t.Within (· ≠ h) fun _ => True

section Within

variable {types : Handle → Prop}

mutual

theorem Codec.within_of_forall {codec : Codec} (h : ∀ j, ¬ codec.Within (· ≠ j) → types j) :
    codec.Within types := by
  cases codec with
  | native c => exact trivial
  | aggregate parts => exact Codec.partsWithin_of_forall h

theorem Codec.partsWithin_of_forall {parts : List (Part × Codec)}
    (h : ∀ j, ¬ Codec.PartsWithin (· ≠ j) parts → types j) : Codec.PartsWithin types parts := by
  match parts with
  | [] => exact trivial
  | (part, codec) :: rest =>
    exact ⟨h part.type fun hw => hw.1 rfl, Codec.within_of_forall fun j hj => h j fun hw => hj hw.2.1,
      Codec.partsWithin_of_forall fun j hj => h j fun hw => hj hw.2.2⟩

end

theorem TypeInfo.within_of_mentions {t : TypeInfo} (h : ∀ j, t.Mentions j → types j) :
    t.Within types fun _ => True := by
  refine ⟨fun codec hcodec => Codec.within_of_forall fun j hj => h j fun hw => hj (hw.codec codec hcodec),
    fun entry hentry f hf => ?_⟩
  cases hbody : f.body with
  | native | host | script => exact trivial
  | aggregate op whole =>
    refine fun p hp => h p.type fun hw => ?_
    have hothers := hw.functions entry hentry f hf
    rw [hbody] at hothers
    exact hothers p hp rfl

theorem TypeInfo.Within.of_mentions {bodies : Nat → Prop} {t : TypeInfo} (h : t.Within types bodies) {j : Handle}
    (hj : t.Mentions j) : types j :=
  by_contra fun hnot => hj (h.mono (fun i (hi : types i) (heq : i = j) => hnot (heq ▸ hi)) fun _ _ => trivial)

end Within

section Reading

variable (c : Catalogue) (scripts : List Script)

/-- Values of the types so called are read from defaults of scripts, or are parts of such values. The types of
other scripts are not declared if their names are taken. -/
inductive Reads : String → Prop where
  | default {s : Script} {f : FieldDecl} (hs : s ∈ scripts) (hnew : c.contains s.type = false)
    (hf : f ∈ s.fields) (hdefault : f.default.isSome) : Reads f.type
  | field {s : Script} {f : FieldDecl} (hs : s ∈ scripts) (hnew : c.contains s.type = false)
    (hread : Reads s.name) (hf : f ∈ s.fields) : Reads f.type

/-- Among the types of a catalogue, those of such values and of all their parts. -/
inductive Involves : Handle → Prop where
  | named {name : String} {h : Handle} (hread : Reads c scripts name) (hh : c.handleNamed? name = some h) :
    Involves h
  | part {h j : Handle} (hh : Involves h) (hj : (c.info h).Mentions j) : Involves j

/-- The types of parts, whose values are constructed where a default leaves them out. -/
inductive Constructs : Handle → Prop where
  | member {s : Script} {f : FieldDecl} {h : Handle} (hs : s ∈ scripts) (hnew : c.contains s.type = false)
    (hread : Reads c scripts s.name) (hf : f ∈ s.fields) (hh : c.handleNamed? f.type = some h) : Constructs h
  | part {h j : Handle} (hh : Involves c scripts h) (hj : (c.info h).Mentions j) : Constructs j

variable {c scripts}

theorem Constructs.involves {h : Handle} (hh : Constructs c scripts h) : Involves c scripts h := by
  cases hh with
  | member hs hnew hread hf hh => exact .named (.field hs hnew hread hf) hh
  | part hh hj => exact .part hh hj

theorem Involves.within {h : Handle} (hh : Involves c scripts h) :
    (c.info h).Within (Constructs c scripts) fun _ => True :=
  TypeInfo.within_of_mentions fun _ hj => .part hh hj

theorem Involves.lt_size {k : Context} (hfiled : k.catalogue.Filed) (hclosed : k.Closed) {h : Handle}
    (hh : Involves k.catalogue scripts h) : h < k.catalogue.infos.size := by
  induction hh with
  | named _ hh => exact hfiled.lt_size (Catalogue.handle?_of_handleNamed? hh)
  | part _ hj ih => exact (hclosed _ ih).of_mentions hj

end Reading

/-- What constructs values of a type without arguments, if a host or a script provides it, comes to the same
whatever is registered besides, on all machines that are comparable to a given one. -/
def Context.Steady (k₀ : Context) (m₀ : Machine) (t : TypeInfo) : Prop :=
  ∀ f, t.resolve (.operator .construct) [] = .ok f → f.body.IsForeign →
    ∀ k k', k₀.Outgrows k → k₀.Outgrows k' → ∀ m m', m₀.Comparable m → m₀.Comparable m' →
      ∀ depth p p', p.Alike p' → Alike ResultAlike ((f.run (invokeWithin depth) [] (some p)).outcome k m)
        ((f.run (invokeWithin depth) [] (some p')).outcome k' m')

/-- What is relied on to read the defaults of scripts: types have the identities of their names and mention only
what is there, and what is called to construct values for which defaults leave something out is steady. -/
structure Workspace.Reliable (w : Workspace) (scripts : List Script) : Prop where
  filed : w.catalogue.Filed
  closed : w.context.Closed
  steady : ∀ h, Constructs w.catalogue scripts h → w.context.Steady w.machine (w.catalogue.info h)

section Repeats

variable {k₀ k k' : Context} {m₀ : Machine} {types : Handle → Prop} {σ : Renumbering}

/-- Values are constructed alike among types that are the same, if what hosts and scripts provide for that is
steady. -/
theorem repeats_of_steady (hk : k₀.Outgrows k) (hk' : k₀.Outgrows k')
    (ha : k.catalogue.Agrees types σ k'.catalogue) (hsteady : ∀ h, types h → k₀.Steady m₀ (k.catalogue.info h))
    (hsame : ∀ h f, types h → (k.catalogue.info h).resolve (.operator .construct) [] = .ok f →
      f.body.IsForeign → σ.function f = f) (depth : Nat) :
    (invokeWithin depth).Repeats m₀ types σ k k' := by
  refine repeats_invokeWithin (fun depth h f hh hf ih p p' hp => ?_) depth
  have hforeign : f.body.IsForeign → Exec.EndAlike m₀ k k' ResultAlike (f.run (invokeWithin depth) [] (some p))
      ((σ.function f).run (invokeWithin depth) [] (some p')) := fun hbody => by
    rw [hsame h f hh hf hbody]
    exact .of_levels (levels_run (levels_invokeWithin depth) f [] _) (levels_run (levels_invokeWithin depth) f [] _)
      fun m m' hm hm' => hsteady h hh f hf hbody k k' hk hk' m m' hm hm' depth p p' hp
  have hwithin := (ha.within h hh).overloads (TypeInfo.mem_of_resolve hf)
  cases hbody : f.body with
  | host function => exact hforeign (hbody ▸ trivial)
  | script number => exact hforeign (hbody ▸ trivial)
  | native op shape destructor =>
    unfold Function.run
    rw [show (σ.function f).body = σ.body f.body from rfl, hbody]
    exact NativeOp.endAlike_run op shape destructor p p'
  | aggregate op whole =>
    unfold Function.run
    rw [show (σ.function f).body = σ.body f.body from rfl, hbody]
    rw [hbody] at hwithin
    exact AggregateOp.endAlike_run ha ih op hwithin hp

end Repeats

namespace Loader

section Found

variable {k k' : Context} {m₀ m m' m₁ m₁' : Machine} {types : Handle → Prop} {σ : Renumbering}
  {script : String}
  {blocked names : List String} {f : FieldDecl}

theorem refuseField?_renumbered {c c' : Catalogue} {σ : Renumbering} {f : FieldDecl}
    (hnamed : c'.handleNamed? f.type = (c.handleNamed? f.type).map σ.handle)
    (hsame : ∀ k ∈ c.handleNamed? f.type, c.SameAt σ c' k) (script : String) (blocked names : List String) :
    refuseField? c' script blocked names f = (refuseField? c script blocked names f).map σ.handle := by
  unfold refuseField?
  rw [hnamed]
  split
  · rfl
  · split
    · rfl
    · split
      · rfl
      · cases hk : c.handleNamed? f.type with
        | none => rfl
        | some k =>
          dsimp only [Option.map_some]
          rw [hsame k hk, Renumbering.visible_type, Renumbering.isOwnable_type]
          split
          · rfl
          · split <;> rfl

def verdict (k : Context) (script : String) (blocked names : List String) (f : FieldDecl) (m : Machine) :
    List ScriptError × Option Member :=
  match refuseField? k.catalogue script blocked names f with
  | .error why => ([refusal script why], none)
  | .ok type =>
    match f.default with
    | none => ([], some ⟨f.name, type, f.default⟩)
    | some j =>
      match (checkDefault (k.catalogue.info type) j).outcome k m with
      | .ok () => ([], some ⟨f.name, type, f.default⟩)
      | .error e => ([refusal script (unreadable f e.message)], none)

theorem Finds.verdict_eq {es : List ScriptError} {x : Option Member}
    (h : Finds k m script blocked names f es x m₁) : verdict k script blocked names f m = (es, x) := by
  unfold verdict Exec.outcome
  cases h with
  | refused hwhy => rw [hwhy]
  | bare hok hdefault => rw [hok, hdefault]
  | read hok hdefault hread | unread hok hdefault hread =>
    rw [hok, hdefault]
    dsimp only
    rw [hread]

/-- The name of a field's type leads to the same type, and if it has a default, that is read with some types. -/
structure SameField (k k' : Context) (types : Handle → Prop) (σ : Renumbering) (f : FieldDecl) : Prop where
  handle : k'.catalogue.handleNamed? f.type = (k.catalogue.handleNamed? f.type).map σ.handle
  same : ∀ j ∈ k.catalogue.handleNamed? f.type, k.catalogue.SameAt σ k'.catalogue j
  read : f.default.isSome → ∀ j ∈ k.catalogue.handleNamed? f.type, ∀ codec ∈ (k.catalogue.info j).codec,
    codec.Within types

variable (ha : k.catalogue.Agrees types σ k'.catalogue)
  (hi : (invokeWithin callDepth).Repeats m₀ types σ k k')
include ha hi

theorem Finds.alike (hm : m₀.Comparable m) (hm' : m₀.Comparable m') {es es' : List ScriptError}
    {x x' : Option Member} (hfield : SameField k k' types σ f) (h : Finds k m script blocked names f es x m₁)
    (h' : Finds k' m' script blocked names f es' x' m₁') :
    es' = es ∧ x' = x.map σ.member ∧ ∀ y ∈ x, k.catalogue.handleNamed? f.type = some y.type := by
  have hverdict := h.verdict_eq
  have hverdict' := h'.verdict_eq
  unfold verdict at hverdict hverdict'
  rw [refuseField?_renumbered hfield.handle hfield.same script blocked names] at hverdict'
  cases hrefuse : refuseField? k.catalogue script blocked names f with
  | error why =>
    rw [hrefuse] at hverdict hverdict'
    cases hverdict
    cases hverdict'
    exact ⟨rfl, rfl, nofun⟩
  | ok type =>
    have hnamed := handleNamed?_of_refuseField? hrefuse
    have hkept : ∀ y ∈ some (⟨f.name, type, f.default⟩ : Member),
        k.catalogue.handleNamed? f.type = some y.type := by
      rintro _ ⟨⟩
      exact hnamed
    rw [hrefuse] at hverdict hverdict'
    dsimp only [Except.map] at hverdict hverdict'
    rw [hfield.same type hnamed] at hverdict'
    cases hdefault : f.default with
    | none =>
      rw [hdefault] at hverdict hverdict' hkept
      cases hverdict
      cases hverdict'
      exact ⟨rfl, rfl, hkept⟩
    | some j =>
      have hread := (endAlike_checkDefault ha hi (hfield.read (by rw [hdefault]; rfl) type hnamed) j m m' hm hm').1
      rw [hdefault] at hverdict hverdict' hkept
      dsimp only at hverdict hverdict'
      generalize (checkDefault (k.catalogue.info type) j).outcome k m = o at hread hverdict
      generalize (checkDefault (σ.type (k.catalogue.info type)) j).outcome k' m' = o' at hread hverdict'
      cases hread with
      | ok _ =>
        cases hverdict
        cases hverdict'
        exact ⟨rfl, rfl, hkept⟩
      | error e =>
        cases hverdict
        cases hverdict'
        exact ⟨rfl, rfl, nofun⟩

theorem FindsAll.alike (hm : m₀.Comparable m) (hm' : m₀.Comparable m') {fields : List FieldDecl}
    {es es' : List ScriptError} {ms ms' : List Member} (hfields : ∀ f ∈ fields, SameField k k' types σ f)
    (h : FindsAll k script blocked m names fields es ms m₁)
    (h' : FindsAll k' script blocked m' names fields es' ms' m₁') :
    es' = es ∧ ms' = ms.map σ.member ∧
      ∀ y ∈ ms, ∃ f ∈ fields, k.catalogue.handleNamed? f.type = some y.type := by
  induction h generalizing m' es' ms' with
  | nil =>
    cases h'
    exact ⟨rfl, rfl, List.forall_mem_nil _⟩
  | cons first rest ih =>
    cases h' with
    | cons first' rest' =>
      obtain ⟨hfield, hfields⟩ := List.forall_mem_cons.mp hfields
      obtain ⟨rfl, rfl, hfirst⟩ := first.alike ha hi hm hm' hfield first'
      obtain ⟨rfl, rfl, hrest⟩ := ih (hm.trans first.comparable) (hm'.trans first'.comparable) hfields rest'
      refine ⟨rfl, ?_, fun y hy => ?_⟩
      · rw [List.map_append, Option.toList_map]
      · rcases List.mem_append.mp hy with hy | hy
        · exact ⟨_, List.mem_cons_self, hfirst y (Option.mem_toList.mp hy)⟩
        · obtain ⟨f, hf, hnamed⟩ := hrest y hy
          exact ⟨f, List.mem_cons_of_mem _ hf, hnamed⟩

end Found

section Mentions

variable {c : Catalogue} {types : Handle → Prop} {bodies : Nat → Prop}

theorem within_codecs {parts : List Part} {codecs : List (Part × Codec)}
    (h : ∀ p ∈ parts, types p.type ∧ ∀ codec ∈ (c.info p.type).codec, codec.Within types)
    (hcodecs : (parts.mapM fun p => (c.info p.type).codec.map (p, ·)) = some codecs) :
    Codec.PartsWithin types codecs := by
  induction parts generalizing codecs with
  | nil =>
    cases hcodecs
    exact trivial
  | cons p parts ih =>
    obtain ⟨⟨hp, hcodec⟩, hparts⟩ := List.forall_mem_cons.mp h
    rw [List.mapM_cons] at hcodecs
    obtain ⟨q, hq, hcodecs⟩ := Option.bind_eq_some_iff.mp hcodecs
    obtain ⟨rest, hrest, hcodecs⟩ := Option.bind_eq_some_iff.mp hcodecs
    obtain ⟨codec, hsome, rfl⟩ := Option.map_eq_some_iff.mp hq
    cases hcodecs
    exact ⟨hp, hcodec codec hsome, ih hparts hrest⟩

theorem within_info (script : String) (layout : Layout) {parts : List Part}
    (h : ∀ p ∈ parts, types p.type ∧ ∀ codec ∈ (c.info p.type).codec, codec.Within types) :
    (Aggregate.info c script layout parts).Within types bodies := by
  unfold Aggregate.info
  refine TypeInfo.Within.addFunctions ⟨fun codec hcodec => ?_, List.forall_mem_nil _⟩ fun f hf => ?_
  · obtain ⟨codecs, hcodecs, rfl⟩ := Option.map_eq_some_iff.mp hcodec
    exact within_codecs h hcodecs
  · unfold Aggregate.functions at hf
    simp only [List.mem_append, List.mem_ite_nil_right, List.mem_cons, List.not_mem_nil, or_false] at hf
    rcases hf with ((⟨-, rfl⟩ | ⟨-, rfl⟩) | ⟨-, rfl⟩) | ⟨-, rfl | rfl⟩ <;> exact fun p hp => (h p hp).1

theorem within_typeOf (script : String) {ms : List Member}
    (h : ∀ m ∈ ms, types m.type ∧ ∀ codec ∈ (c.info m.type).codec, codec.Within types) :
    (typeOf c script ms).1.Within types bodies := by
  unfold typeOf
  split
  · next layout parts hplace =>
    refine within_info script layout fun p hp => ?_
    have hface : (p.name, p.type) ∈ parts.map fun p => (p.name, p.type) := List.mem_map_of_mem hp
    rw [Aggregate.map_parts hplace] at hface
    obtain ⟨m, hm, heq⟩ := List.mem_map.mp hface
    rw [← (Prod.mk.inj heq).2]
    exact h m hm
  · exact within_info script _ (List.forall_mem_nil _)

end Mentions

section Composed

variable {c : Catalogue}

theorem body_of_mem_typeOf {script : String} {ms : List Member} {entry : FunctionKey × List Function}
    {f : Function} (hentry : entry ∈ (typeOf c script ms).1.functions) (hf : f ∈ entry.2) :
    ∃ op whole, f.body = .aggregate op whole ∧ whole.type = .ofName script := by
  have hinfo : ∀ layout parts, entry ∈ (Aggregate.info c script layout parts).functions →
      ∃ op whole, f.body = .aggregate op whole ∧ whole.type = .ofName script := by
    intro layout parts hentry
    rcases TypeInfo.mem_functions_addFunctions hentry hf with hf | ⟨_, hnone, -⟩
    · unfold Aggregate.functions at hf
      simp only [List.mem_append, List.mem_ite_nil_right, List.mem_cons, List.not_mem_nil, or_false] at hf
      rcases hf with ((⟨-, rfl⟩ | ⟨-, rfl⟩) | ⟨-, rfl⟩) | ⟨-, rfl | rfl⟩ <;> exact ⟨_, _, rfl, rfl⟩
    · cases hnone
  unfold typeOf at hentry
  split at hentry
  · exact hinfo _ _ hentry
  · exact hinfo _ _ hentry

theorem overloads_typeOf {script : String} {ms : List Member} {key : FunctionKey}
    (hkey : ∀ op, key ≠ .operator op) : (typeOf c script ms).1.overloads key = [] := by
  have hfunction : ∀ (whole : Aggregate) op params result body, key ≠ (whole.function op params result body).key :=
    fun _ op _ _ _ h => hkey op (h.trans (FunctionKey.ofName_functionName op))
  have hinfo : ∀ layout parts, (Aggregate.info c script layout parts).overloads key = [] := by
    intro layout parts
    refine TypeInfo.overloads_addFunctions_of_ne fun f hf => ?_
    unfold Aggregate.functions at hf
    simp only [List.mem_append, List.mem_ite_nil_right, List.mem_cons, List.not_mem_nil, or_false] at hf
    rcases hf with ((⟨-, rfl⟩ | ⟨-, rfl⟩) | ⟨-, rfl⟩) | ⟨-, rfl | rfl⟩ <;> exact hfunction _ _ _ _ _
  unfold typeOf
  split
  · exact hinfo _ _
  · exact hinfo _ _

end Composed

end Loader

end Flowscript
