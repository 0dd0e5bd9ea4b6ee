import Flowscript.Proofs.Types.RegistryEvolution

/-! # Constructions that fail

An aggregate is constructed part by part, in one of four ways: from defaults, by copying, by moving or from a
document. When a part cannot be initialised, the parts before it end again, the last one first, and storage that
was set aside for the whole is given up. What a part does on its own account is left open, so that the parts
may be aggregates themselves, which have then already undone what they did.
-/
namespace Flowscript

open Exec

variable {ε α β : Type} {w : Context}

/-- What the end of a value tells, the first thing first. -/
def Destructor.endings (m : Memory) : Option Destructor → Place → List Event
  | none, _ => []
  | some d, p => d.events m p

/-- What is told when values end that were initialised one after another: the last one ends first. -/
def unwinding (m : Memory) (destructor : α → Option Destructor) (place : α → Place) (built : List α) :
    List Event :=
  built.reverse.flatMap fun a => Destructor.endings m (destructor a) (place a)

namespace Machine

def observe (m : Machine) (es : List Event) : Machine := { m with journal := es.reverse ++ m.journal }

@[simp] theorem memory_observe (m : Machine) (es : List Event) : (m.observe es).memory = m.memory := rfl

theorem observe_observe (m : Machine) (es es' : List Event) : (m.observe es).observe es' = m.observe (es ++ es') := by
  rw [observe, observe, observe, List.reverse_append, List.append_assoc]

/-- The storage in which a value is constructed: that of the caller, or some that is set aside. -/
def storage (m : Machine) (layout : Layout) : Option Place → Place × Machine
  | some target => (target, m)
  | none =>
    (⟨m.memory.next, 0, .apart (if layout.size = 0 then layout.align else 0)⟩,
      { m with memory := (m.memory.reserve 1).2 })

/-- Storage that was set aside is given up. -/
def release (m : Machine) (ret : Option Place) (target : Place) : Machine :=
  match ret with
  | some _ => m
  | none => { m with memory := m.memory.free target.block }

/-- A value that was constructed in storage set aside for it owns that storage and is in care. -/
def handOut (m : Machine) (type : TypeId) (layout : Layout) (destructor : Option Destructor) (target : Place) :
    Option Place → Option Value × Machine
  | some _ => (none, m)
  | none => (some (.owned type target layout.size destructor), { m with care := m.care.take ⟨target, type⟩ })

end Machine

namespace Exec

variable {m t u : Machine} {e : ε}

theorem destroy_eq (destructor : Option Destructor) (p : Place) (m : Machine) :
    (destroy destructor p : Exec ε Unit) w m = .ok () (m.observe (Destructor.endings m.memory destructor p)) := by
  cases destructor <;> rfl

theorem drop_owned (type : TypeId) (p : Place) (size : Nat) (destructor : Option Destructor) (m : Machine) :
    (drop (.owned type p size destructor) : Exec ε Unit) w m =
      .ok () { m.observe (Destructor.endings m.memory destructor p) with
        care := m.care.lose ⟨p, type⟩, memory := m.memory.free p.block } := by
  cases destructor <;> rfl

theorem orEnd_of_ok {destructor : Option Destructor} {p : Place} {rest : Exec ε Unit} (h : rest w m = .ok () t) :
    orEnd destructor p rest w m = .ok () t := by
  rw [orEnd, bind_of_ok (b := .ok ()) (t := t) (by rw [attempt, h])]
  rfl

theorem orEnd_of_error {destructor : Option Destructor} {p : Place} {rest : Exec ε Unit} (h : rest w m = .error e t) :
    orEnd destructor p rest w m = .error e (t.observe (Destructor.endings t.memory destructor p)) := by
  rw [orEnd, bind_of_ok (b := .error e) (t := t) (by rw [attempt, h])]
  exact bind_of_ok (destroy_eq destructor p t)

section Produce

variable {type : TypeId} {layout : Layout} {destructor : Option Destructor} {ret : Option Place}
  {init : Place → Exec ε Unit}

theorem produce_of_ok (h : init (m.storage layout ret).1 w (m.storage layout ret).2 = .ok () t) :
    produce type layout destructor ret init w m =
      .ok (t.handOut type layout destructor (m.storage layout ret).1 ret).1
        (t.handOut type layout destructor (m.storage layout ret).1 ret).2 := by
  cases ret with
  | some target => exact bind_of_ok h
  | none =>
    have hplace : (allocate layout : Exec ε Place) w m = .ok (m.storage layout none).1 (m.storage layout none).2 := rfl
    have hinit : (attempt (init (m.storage layout none).1) : Exec ε _) w (m.storage layout none).2 =
      .ok (.ok ()) t := by
      rw [attempt, h]
    exact (bind_of_ok hplace).trans (bind_of_ok hinit)

theorem produce_of_error (h : init (m.storage layout ret).1 w (m.storage layout ret).2 = .error e t) :
    produce type layout destructor ret init w m = .error e (t.release ret (m.storage layout ret).1) := by
  cases ret with
  | some target => exact bind_of_error h
  | none =>
    have hplace : (allocate layout : Exec ε Place) w m = .ok (m.storage layout none).1 (m.storage layout none).2 := rfl
    have hinit : (attempt (init (m.storage layout none).1) : Exec ε _) w (m.storage layout none).2 =
        .ok (.error e) t := by
      rw [attempt, h]
    exact (bind_of_ok hplace).trans (bind_of_ok hinit)

end Produce

end Exec

namespace Invoke

section BuildParts

variable {place : α → Place} {destructor : α → Option Destructor} {init : α → Exec CallError Unit}
  {m t u : Machine}
  {e : CallError}

theorem buildParts_of_ok {as : List α} (h : (forM as init : Exec CallError Unit) w m = .ok () t) :
    buildParts place destructor init as w m = .ok () t := by
  induction as generalizing m with
  | nil => exact h
  | cons a as ih =>
    rw [List.forM_cons] at h
    cases ha : init a w m with
    | error e k =>
      rw [bind_of_error ha] at h
      cases h
    | ok _ k =>
      rw [bind_of_ok ha] at h
      exact (bind_of_ok ha).trans (orEnd_of_ok (ih h))

theorem buildParts_of_error {built rest : List α} {a : α}
    (hbuilt : (forM built init : Exec CallError Unit) w m = .ok () t)
    (hfail : init a w t = .error e u) : buildParts place destructor init (built ++ a :: rest) w m =
      .error e (u.observe (unwinding u.memory destructor place built)) := by
  induction built generalizing m with
  | nil =>
    cases hbuilt
    exact bind_of_error hfail
  | cons b built ih =>
    rw [List.forM_cons] at hbuilt
    cases hb : init b w m with
    | error e k =>
      rw [bind_of_error hb] at hbuilt
      cases hbuilt
    | ok _ k =>
      rw [bind_of_ok hb] at hbuilt
      refine (bind_of_ok hb).trans ((orEnd_of_error (ih hbuilt)).trans ?_)
      rw [Machine.memory_observe, Machine.observe_observe, unwinding, unwinding, List.reverse_cons,
        List.flatMap_append, List.flatMap_singleton]

theorem buildParts_congr {init' : α → Exec CallError Unit} {as : List α} (h : ∀ a ∈ as, init a = init' a) :
    buildParts place destructor init as = buildParts place destructor init' as := by
  induction as with
  | nil => rfl
  | cons a as ih =>
    rw [buildParts, buildParts, h a List.mem_cons_self, ih fun b hb => h b (List.mem_cons_of_mem _ hb)]

end BuildParts

/-- Initialises a part of an object that is read: from its entry, or else as its declared default says, or else
as its type does on its own. Here `c` has the types as they were when the aggregate was declared. -/
def decodePart (invoke : Invoke) (c : Catalogue) (entries : List (String × Json)) (part : Part) (target : Place) :
    Exec CallError Unit :=
  match entries.lookup part.name with
  | some j => mapError (.inField part.name) (invoke.decodeAt (c.info part.type) j target)
  | none =>
    match part.default with
    | some j => mapError (.inDefault part.name) (invoke.decodeAt (c.info part.type) j target)
    | none => do invoke.defaultAt (← typeInfo part.type) target

variable {invoke : Invoke} {c : Catalogue}

theorem decodeParts_eq {parts : List (Part × Codec)} (hcodec : ∀ q ∈ parts, (c.info q.1.type).codec = some q.2)
    (entries : List (String × Json)) (target : Place) : decodeParts invoke parts entries target =
      buildParts (fun part => target.shift part.offset) (·.destructor)
        (fun part => invoke.decodePart c entries part (target.shift part.offset)) (parts.map (·.1)) := by
  induction parts with
  | nil => rw [decodeParts, List.map_nil, buildParts]
  | cons q parts ih =>
    obtain ⟨part, codec⟩ := q
    obtain ⟨hfirst, hrest⟩ := List.forall_mem_cons.mp hcodec
    have hdecode (j : Json) (p : Place) : decode invoke codec j p = invoke.decodeAt (c.info part.type) j p := by
      rw [decodeAt, hfirst]
    rw [List.map_cons, buildParts, ← ih hrest, decodeParts, decodePart]
    simp only [hdecode]
    cases entries.lookup part.name with
    | some j => rfl
    | none => cases part.default <;> rfl

end Invoke

def TypeInfo.Honest (t : TypeInfo) : Prop := t.traits.trivial → t.destructor = none

theorem TypeInfo.honest_makeup {t : TypeInfo} : t.makeup.Honest ↔ t.Honest := Iff.rfl

/-- All types are honest about how they end. -/
def Catalogue.Honest (c : Catalogue) : Prop := ∀ h : Handle, (c.info h).Honest

theorem NativeType.honest_info (t : NativeType) : t.info.Honest := by
  rw [info, TypeInfo.Honest, TypeInfo.addFunctions_eq]
  exact Option.isNone_iff_eq_none.mp

namespace Aggregate

variable {invoke : Invoke} {c : Catalogue} {script : String} {layout : Layout} {parts : List Part}

theorem honest_info (c : Catalogue) (script : String) (layout : Layout) (parts : List Part) :
    (info c script layout parts).Honest := by
  rw [info, TypeInfo.Honest, TypeInfo.addFunctions_eq]
  exact Option.isNone_iff_eq_none.mp

end Aggregate

/-- Whatever a host and a loader do, types are honest about how they end, as far as the host registers such
types. -/
theorem Shared.honest_run {s s' : Shared} {hs : List Happening}
    (hstart : ({} : Catalogue).Evolves (fun t => t.Named ∧ t.Honest) s.catalogue)
    (hhs : ∀ h ∈ hs, h.Registers fun t => t.Named ∧ t.Honest) (hrun : run hs s = some s') :
    s'.catalogue.Honest := by
  have hdeclared : Loader.Establishes (fun _ => True) fun _ t => t.Honest := fun c s ms _ _ _ => by
    unfold Loader.typeOf
    split <;> exact TypeInfo.honest_makeup.mpr (Aggregate.honest_info c s.name _ _)
  have hall := run_layered_of_evolves (fun _ _ ht => ht.2) (fun _ ht => ht.1) hdeclared hstart hhs
    (fun h _ => h.brings_any) hrun
  intro h
  by_cases hh : h < s'.catalogue.infos.size
  · exact hall.info hh
  · rw [Catalogue.info, Array.getD_eq_getD_getElem?, Array.getElem?_eq_none (Nat.le_of_not_lt hh)]
    exact fun _ => rfl

namespace Aggregate

variable {invoke : Invoke} {c : Catalogue} {script : String} {layout : Layout} {parts : List Part}

def declared (c : Catalogue) (script : String) (layout : Layout) (parts : List Part) : Aggregate :=
  { type := .ofName script, layout, destructor := destructorOf c parts, parts }

theorem codecs_of_codecOf? {codec : Codec} (h : codecOf? c parts = some codec) :
    ∃ qs, codec = .aggregate qs ∧ qs.map (·.1) = parts ∧ ∀ q ∈ qs, (c.info q.1.type).codec = some q.2 := by
  obtain ⟨qs, hqs, rfl⟩ := Option.map_eq_some_iff.mp h
  refine ⟨qs, rfl, ?_⟩
  clear h
  induction parts generalizing qs with
  | nil =>
    cases hqs
    exact ⟨rfl, List.forall_mem_nil _⟩
  | cons part parts ih =>
    simp only [List.mapM_cons, Option.bind_eq_bind, Option.bind_eq_some_iff, Option.pure_def, Option.map_eq_some_iff,
      Option.some.injEq] at hqs
    obtain ⟨_, ⟨codec, hcodec, rfl⟩, qs, hqs, rfl⟩ := hqs
    obtain ⟨hparts, hrest⟩ := ih qs hqs
    exact ⟨by rw [List.map_cons, hparts], List.forall_mem_cons.mpr ⟨hcodec, hrest⟩⟩

theorem destructor_of_mem {members : List Member} (h : place? c members = some (layout, parts)) :
    ∀ part ∈ parts, part.destructor = (c.info part.type).destructor := by
  obtain ⟨⟨whole, offsets⟩, -, heq⟩ := Option.map_eq_some_iff.mp h
  obtain ⟨-, rfl⟩ := Prod.mk.inj heq
  intro part hpart
  obtain ⟨q, -, rfl⟩ := List.mem_map.mp hpart
  rfl

theorem partEvents_eq (m : Memory) (target : Place) (parts : List Part) :
    Destructor.partEvents m (parts.filterMap fun p => p.destructor.map (p.offset, ·)) target =
      unwinding m (·.destructor) (fun p => target.shift p.offset) parts := by
  induction parts with
  | nil => rfl
  | cons part parts ih =>
    rw [unwinding, List.reverse_cons, List.flatMap_append, List.flatMap_singleton, ← unwinding, ← ih,
      List.filterMap_cons]
    cases part.destructor with
    | none => exact (List.append_nil _).symm
    | some d => rfl

theorem endings_destructorOf (hc : c.Honest) (hparts : ∀ p ∈ parts, p.destructor = (c.info p.type).destructor)
    (m : Memory) (target : Place) : Destructor.endings m (destructorOf c parts) target =
      unwinding m (·.destructor) (fun p => target.shift p.offset) parts := by
  unfold destructorOf
  split
  · next htrivial =>
    have hsilent : ∀ p ∈ parts.reverse, Destructor.endings m p.destructor (target.shift p.offset) = [] := by
      intro p hp
      rw [hparts p (List.mem_reverse.mp hp), hc p.type (List.all_eq_true.mp htrivial p (List.mem_reverse.mp hp))]
      rfl
    exact (List.flatMap_eq_nil_iff.mpr hsilent).symm
  · exact partEvents_eq m target parts

/-- The ways to construct an aggregate: what is run, with storage for the result or without, and how it
initialises a part. -/
inductive Constructs (invoke : Invoke) (c : Catalogue) (script : String) (layout : Layout) (parts : List Part) :
    (Option Place → Exec CallError (Option Value)) → (Part → Place → Exec CallError Unit) → Prop where
  | default {f : Function} (hbody : f.body = .aggregate .default (declared c script layout parts)) (args : List Value) :
    Constructs invoke c script layout parts (f.run invoke args) invoke.defaultPart
  | copy {f : Function} (hbody : f.body = .aggregate .copy (declared c script layout parts)) {args : List Value}
    {source : Place} (hsource : args.head?.bind Value.place? = some source) :
    Constructs invoke c script layout parts (f.run invoke args) fun part target => do
      invoke.copyAt (← typeInfo part.type) target (source.shift part.offset)
  | move {f : Function} (hbody : f.body = .aggregate .move (declared c script layout parts)) {args : List Value}
    {source : Place} (hsource : args.head?.bind Value.place? = some source) :
    Constructs invoke c script layout parts (f.run invoke args) fun part target => do
      let t ← typeInfo part.type
      if t.traits.move then invoke.moveAt t target (source.shift part.offset)
      else invoke.copyAt t target (source.shift part.offset)
  | decode {t : TypeInfo} {functions : List (FunctionKey × List Function)} {derived : List TypeId}
    (ht : t = { info c script layout parts with functions, derived }) (hcodec : t.codec.isSome)
    (entries : List (String × Json)) :
    Constructs invoke c script layout parts
      (fun ret => produce t.id t.layout t.destructor ret (invoke.decodeAt t (.obj entries)))
      (invoke.decodePart c entries)

/-- What is left behind by a construction of an aggregate, whether it fails or not, and by the end of the
value. -/
structure CleansUp (c : Catalogue) (script : String) (layout : Layout) (parts : List Part)
    (run : Option Place → Exec CallError (Option Value)) (init : Part → Place → Exec CallError Unit) : Prop where
  /-- If a part fails, just the parts before it end, in reverse order, and no storage is kept. -/
  fails : ∀ (w : Context) (m : Machine) (ret : Option Place) (built rest : List Part) (failing : Part)
    (k l : Machine) (e : CallError), parts = built ++ failing :: rest →
    let target := (m.storage layout ret).1
    let place := fun part : Part => target.shift part.offset
    (forM built fun part => init part (place part) : Exec CallError Unit) w (m.storage layout ret).2 = .ok () k →
    init failing (place failing) w k = .error e l →
    run ret w m = .error e
      ((l.observe (unwinding l.memory (fun part => (c.info part.type).destructor) place built)).release ret target)
  /-- If none fails, none ends. -/
  builds : ∀ (w : Context) (m : Machine) (ret : Option Place) (k : Machine),
    let target := (m.storage layout ret).1
    (forM parts fun part => init part (target.shift part.offset) : Exec CallError Unit) w (m.storage layout ret).2 =
      .ok () k →
    let handed := k.handOut (.ofName script) layout (destructorOf c parts) target ret
    run ret w m = .ok handed.1 handed.2
  /-- The end of the value is the end of each part, in reverse order. -/
  ends : ∀ (w : Context) (m : Machine) (target : Place),
    let told := unwinding m.memory (fun part => (c.info part.type).destructor) (fun part => target.shift part.offset)
      parts
    (destroy (info c script layout parts).destructor target : Exec CallError Unit) w m = .ok () (m.observe told) ∧
    (drop (.owned (.ofName script) target layout.size (destructorOf c parts)) : Exec CallError Unit) w m =
      .ok () { m.observe told with
        care := m.care.lose ⟨target, .ofName script⟩, memory := m.memory.free target.block }
  /-- A document that is read only to see whether it can be read leaves no storage and no parts either. -/
  checks : ∀ (w : Context) (m : Machine) (j : Json),
    let t := info c script layout parts
    let target := (m.storage layout none).1
    let start := (m.storage layout none).2
    let told := fun k : Machine =>
      unwinding k.memory (fun part => (c.info part.type).destructor) (fun part => target.shift part.offset) parts
    (∀ k, Flowscript.invoke.decodeAt t j target w start = .ok () k →
      Loader.checkDefault t j w m = .ok () ((k.observe (told k)).release none target)) ∧
    ∀ e l, Flowscript.invoke.decodeAt t j target w start = .error e l →
      Loader.checkDefault t j w m = .error e (l.release none target)

theorem unwinding_congr {m : Memory} {d d' : Part → Option Destructor} {place : Part → Place} {built : List Part}
    (h : ∀ part ∈ built, d part = d' part) : unwinding m d place built = unwinding m d' place built := by
  refine List.flatMap_congr fun part hpart => ?_
  rw [h part (List.mem_reverse.mp hpart)]

theorem destructor_info (c : Catalogue) (script : String) (layout : Layout) (parts : List Part) :
    (info c script layout parts).destructor = destructorOf c parts ∧
      (info c script layout parts).codec = codecOf? c parts ∧ (info c script layout parts).layout = layout := by
  rw [info, TypeInfo.addFunctions_eq]
  exact ⟨rfl, rfl, rfl⟩

theorem Constructs.run_eq {run : Option Place → Exec CallError (Option Value)}
    {init : Part → Place → Exec CallError Unit} (h : Constructs invoke c script layout parts run init)
    (ret : Option Place) : run ret = produce (.ofName script) layout (destructorOf c parts) ret fun target =>
      Invoke.buildParts (fun part => target.shift part.offset) (·.destructor)
        (fun part => init part (target.shift part.offset)) parts := by
  cases h with
  | default hbody args =>
    rw [Function.run, hbody]
    rfl
  | copy hbody hsource =>
    rw [Function.run, hbody]
    dsimp only
    rw [AggregateOp.run, AggregateOp.source, hsource]
    rfl
  | move hbody hsource =>
    rw [Function.run, hbody]
    dsimp only
    rw [AggregateOp.run, AggregateOp.source, hsource]
    rfl
  | decode ht hcodec entries =>
    obtain ⟨hdestructor, hcodecs, hlayout⟩ := destructor_info c script layout parts
    subst ht
    dsimp only at hcodec ⊢
    rw [(info_eq c script layout parts).1, hdestructor, hlayout]
    rw [hcodecs] at hcodec
    obtain ⟨codec, hcodec⟩ := Option.isSome_iff_exists.mp hcodec
    obtain ⟨qs, rfl, hparts, hqs⟩ := codecs_of_codecOf? hcodec
    congr 1
    funext target
    rw [Invoke.decodeAt, hcodecs, hcodec]
    dsimp only
    rw [Invoke.decode, Invoke.decodeParts_eq hqs, hparts]

section CheckDefault

variable {t : TypeInfo} {j : Json} {m k : Machine}

theorem checkDefault_of_ok
    (h : Flowscript.invoke.decodeAt t j (m.storage t.layout none).1 w (m.storage t.layout none).2 = .ok () k) :
    Loader.checkDefault t j w m = .ok ()
      ((k.observe (Destructor.endings k.memory t.destructor (m.storage t.layout none).1)).release none
        (m.storage t.layout none).1) := by
  have hplace : (allocate t.layout : Exec CallError Place) w m =
      .ok (m.storage t.layout none).1 (m.storage t.layout none).2 := rfl
  have hread : (attempt (Flowscript.invoke.decodeAt t j (m.storage t.layout none).1) : Exec CallError _) w
      (m.storage t.layout none).2 = .ok (.ok ()) k := by
    rw [attempt, h]
  exact (bind_of_ok hplace).trans ((bind_of_ok hread).trans (bind_of_ok (destroy_eq t.destructor _ k)))

theorem checkDefault_of_error {e : CallError}
    (h : Flowscript.invoke.decodeAt t j (m.storage t.layout none).1 w (m.storage t.layout none).2 = .error e k) :
    Loader.checkDefault t j w m = .error e (k.release none (m.storage t.layout none).1) := by
  have hplace : (allocate t.layout : Exec CallError Place) w m =
      .ok (m.storage t.layout none).1 (m.storage t.layout none).2 := rfl
  have hread : (attempt (Flowscript.invoke.decodeAt t j (m.storage t.layout none).1) : Exec CallError _) w
      (m.storage t.layout none).2 = .ok (.error e) k := by
    rw [attempt, h]
  exact (bind_of_ok hplace).trans (bind_of_ok hread)

end CheckDefault

/-- Whatever way an aggregate is constructed, with storage for it or without, and whichever part fails: the parts
that were built end, each once and in reverse order, no storage is kept and the error comes back. If no part fails,
none ends before the value does, and then each ends once. -/
theorem cleansUp_of_constructs {members : List Member} (hplace : place? c members = some (layout, parts))
    (hc : c.Honest) {run : Option Place → Exec CallError (Option Value)}
    {init : Part → Place → Exec CallError Unit}
    (h : Constructs invoke c script layout parts run init) : CleansUp c script layout parts run init := by
  have hparts := destructor_of_mem hplace
  have hends (m : Memory) (target : Place) : Destructor.endings m (destructorOf c parts) target =
      unwinding m (fun part => (c.info part.type).destructor) (fun part => target.shift part.offset) parts :=
    (endings_destructorOf hc hparts m target).trans (unwinding_congr hparts)
  obtain ⟨hdestructor, -, hlayout⟩ := destructor_info c script layout parts
  refine ⟨?_, ?_, ?_, ?_⟩
  · intro w m ret built rest failing k l e hsplit target place hbuilt hfails
    rw [h.run_eq]
    refine produce_of_error ?_
    have hsome : ∀ part ∈ built, part.destructor = (c.info part.type).destructor := fun part hpart =>
      hparts part (hsplit ▸ List.mem_append_left _ hpart)
    rw [← unwinding_congr hsome, hsplit]
    exact Invoke.buildParts_of_error hbuilt hfails
  · intro w m ret k target hbuilt
    rw [h.run_eq]
    exact produce_of_ok (Invoke.buildParts_of_ok hbuilt)
  · intro w m target
    dsimp only
    rw [← hends]
    exact ⟨hdestructor ▸ destroy_eq _ target m, drop_owned _ target _ _ m⟩
  · intro w m j
    dsimp only
    simp only [← hends, ← hdestructor]
    generalize info c script layout parts = t at hlayout ⊢
    subst hlayout
    exact ⟨fun k hk => checkDefault_of_ok hk, fun e l hl => checkDefault_of_error hl⟩

/-- A type of which a label is told when its values end. -/
def wax : TypeInfo :=
  { TypeInfo.new "Wax" ⟨1, 1⟩ with
    traits := {}, destructor := some (.labelled "wax"), codec := some (.native (.unit "Wax")) }

def count : TypeInfo := { TypeInfo.new "Count" ⟨4, 4⟩ with codec := some (.native (.scalar (.int .i32))) }

/-- A sealed letter whose pages cannot be read is opened again, and its storage is given up. -/
theorem cleansUp_of_constructs_letter :
    let c : Catalogue := { infos := #[wax, count] }
    let parts : List Part := [⟨"seal", 0, 0, none, wax.destructor⟩, ⟨"pages", 1, 4, none, none⟩]
    let letter := info c "Letter" ⟨8, 4⟩ parts
    (place? c [⟨"seal", 0, none⟩, ⟨"pages", 1, none⟩] = some (⟨8, 4⟩, parts) ∧ c.Honest) ∧
      produce letter.id letter.layout letter.destructor none
        (Flowscript.invoke.decodeAt letter (.obj [("seal", .null), ("pages", .str "many")])) {} {} =
      .error (.inField "pages" (.unexpected (.str "many") "i32"))
        { journal := [.destroyed (.label "wax") ⟨0, 0, .apart 0⟩]
          memory := (({} : Memory).reserve 1).2.free 0 } := by
  intro c parts letter
  have hplace : place? c [⟨"seal", 0, none⟩, ⟨"pages", 1, none⟩] = some (⟨8, 4⟩, parts) := by
    have hlayouts : Layout.place? [⟨1, 1⟩, ⟨4, 4⟩] = some (⟨8, 4⟩, [0, 4]) := by decide
    exact congrArg (Option.map _) hlayouts
  have hc : c.Honest := fun h => by
    match h with
    | 0 => exact fun htrivial => nomatch htrivial
    | 1 => exact fun _ => rfl
    | h + 2 => exact fun _ => rfl
  have hdecode : Constructs Flowscript.invoke c "Letter" ⟨8, 4⟩ parts _ _ :=
    .decode (t := letter) rfl rfl [("seal", .null), ("pages", .str "many")]
  exact ⟨⟨hplace, hc⟩, (cleansUp_of_constructs hplace hc hdecode).fails {} {} none
    [⟨"seal", 0, 0, none, wax.destructor⟩] []
    ⟨"pages", 1, 4, none, none⟩ _ _ _ rfl rfl rfl⟩

end Aggregate

end Flowscript
