import Flowscript.Machine.State
import Flowscript.Proofs.CollectionLemmas
import Flowscript.Proofs.Types.TypeRegistration
import Flowscript.Type.Aggregate

/-! # Types and bodies with other numbers

Types and bodies are mentioned by number, and how they are numbered depends on what was declared before
them. Everything that mentions them can be renumbered; nothing that scripts or hosts can see changes by
that.
-/
namespace Flowscript

/-- Other numbers for types and bodies. -/
structure Renumbering where
  handle : Nat → Nat
  number : Nat → Nat

namespace Renumbering

variable (σ : Renumbering)

def part (p : Part) : Part := { p with type := σ.handle p.type }

mutual

def codec : Codec → Codec
  | .native c => .native c
  | .aggregate parts => .aggregate (codecs parts)

def codecs : List (Part × Codec) → List (Part × Codec)
  | [] => []
  | (part, codec') :: rest => (σ.part part, codec codec') :: codecs rest

end

def aggregate (whole : Aggregate) : Aggregate := { whole with parts := whole.parts.map σ.part }

def body : Body → Body
  | .native op shape destructor => .native op shape destructor
  | .aggregate op whole => .aggregate op (σ.aggregate whole)
  | .host f => .host f
  | .script n => .script (σ.number n)

def function (f : Function) : Function := { f with body := σ.body f.body }

def type (t : TypeInfo) : TypeInfo :=
  { t with
    functions := t.functions.map fun entry => (entry.1, entry.2.map σ.function)
    codec := t.codec.map σ.codec }

def member (m : Member) : Member := { m with type := σ.handle m.type }

def op : Op → Op
  | .call f => .call (σ.function f)
  | .fieldGet offset h => .fieldGet offset (σ.handle h)
  | .fieldSet offset h => .fieldSet offset (σ.handle h)
  | op => op

def node (n : ProgramNode) : ProgramNode := { n with op := σ.op n.op }

def pin (p : ProgramPin) : ProgramPin := { p with type := p.type.map σ.handle }

def program (p : Program) : Program :=
  { p with
    nodes := p.nodes.map (·.map σ.node)
    pins := p.pins.map (·.map σ.pin)
    result := p.result.map fun r => (σ.handle r.1, r.2) }

def state : BodyState → BodyState
  | .ready p => .ready (σ.program p)
  | state => state

def scriptBody (b : ScriptBody) : ScriptBody := { b with state := σ.state b.state }

variable {σ}

section Checks

variable (f : Function) (args : List Function.Argument)

theorem checkFrom_function (index : Nat) (ps : List Param) :
    (σ.function f).checkFrom index ps args = f.checkFrom index ps args := by
  induction ps generalizing index args with
  | nil => unfold Function.checkFrom; rfl
  | cons p ps ih =>
    cases args with
    | nil => unfold Function.checkFrom; rfl
    | cons a args =>
      rw [Function.checkFrom, Function.checkFrom]
      simp only [ih]
      rfl

theorem check_function : (σ.function f).check args = f.check args := by
  unfold Function.check
  rw [checkFrom_function]
  rfl

end Checks

section Types

variable (t : TypeInfo) (key : FunctionKey)

@[simp] theorem id_type : (σ.type t).id = t.id := rfl

@[simp] theorem name_type : (σ.type t).name = t.name := rfl

@[simp] theorem layout_type : (σ.type t).layout = t.layout := rfl

@[simp] theorem traits_type : (σ.type t).traits = t.traits := rfl

@[simp] theorem visible_type : (σ.type t).visible = t.visible := rfl

@[simp] theorem fields_type : (σ.type t).fields = t.fields := rfl

@[simp] theorem bases_type : (σ.type t).bases = t.bases := rfl

@[simp] theorem destructor_type : (σ.type t).destructor = t.destructor := rfl

@[simp] theorem isOwnable_type : (σ.type t).isOwnable = t.isOwnable := rfl

@[simp] theorem overloads_type : (σ.type t).overloads key = (t.overloads key).map σ.function := by
  rw [TypeInfo.overloads, TypeInfo.overloads, type, lookup_map (List.map σ.function)]
  cases t.functions.lookup key <;> rfl

theorem functionsNamed_type (name : String) :
    (σ.type t).functionsNamed name = (t.functionsNamed name).map σ.function := by
  rw [TypeInfo.functionsNamed, overloads_type, List.filter_map]
  rfl

theorem better_function (args : List Function.Argument) (best : Option Function) (f : Function) :
    TypeInfo.better args (best.map σ.function) (σ.function f) =
      (TypeInfo.better args best f).map σ.function := by
  cases best with
  | none => rfl
  | some b =>
    unfold TypeInfo.better
    dsimp only [Option.map_some]
    rw [show (σ.function b).exactForms args = b.exactForms args from rfl,
      show (σ.function f).exactForms args = f.exactForms args from rfl]
    split <;> rfl

theorem walkOverloads_map (args : List Function.Argument) (fs : List Function) (best : Option Function)
    (last : Option CallError) : TypeInfo.walkOverloads args (fs.map σ.function) (best.map σ.function) last =
      (((TypeInfo.walkOverloads args fs best last).1).map σ.function,
        (TypeInfo.walkOverloads args fs best last).2) := by
  induction fs generalizing best last with
  | nil => rfl
  | cons f fs ih =>
    rw [List.map_cons, TypeInfo.walkOverloads, TypeInfo.walkOverloads, check_function, better_function]
    cases f.check args with
    | ok _ => exact ih _ _
    | error e => exact ih _ _

theorem resolve_type (args : List Function.Argument) :
    (σ.type t).resolve key args = (t.resolve key args).map σ.function := by
  unfold TypeInfo.resolve
  rw [overloads_type]
  cases hfs : t.overloads key with
  | nil => rfl
  | cons f fs =>
    have hwalk := walkOverloads_map (σ := σ) args (f :: fs) none none
    rw [Option.map_none] at hwalk
    rw [List.map_cons]
    dsimp only
    rw [← List.map_cons, hwalk]
    cases TypeInfo.walkOverloads args (f :: fs) none none with
    | mk best last => cases best <;> cases last <;> rfl

theorem setOverloads_map (fs : List Function) (functions : List (FunctionKey × List Function)) :
    TypeInfo.setOverloads key (fs.map σ.function)
        (functions.map fun entry => (entry.1, entry.2.map σ.function)) =
      (TypeInfo.setOverloads key fs functions).map fun entry => (entry.1, entry.2.map σ.function) := by
  induction functions with
  | nil => rfl
  | cons entry rest ih =>
    obtain ⟨k, gs⟩ := entry
    rw [List.map_cons, TypeInfo.setOverloads, TypeInfo.setOverloads, ih]
    split <;> rfl

theorem addFunction_type (f : Function) :
    (σ.type t).addFunction (σ.function f) = σ.type (t.addFunction f) := by
  have hkept : ((σ.type t).overloads (σ.function f).key).filter (·.signature != (σ.function f).signature) =
      ((t.overloads f.key).filter (·.signature != f.signature)).map σ.function := by
    rw [show (σ.function f).key = f.key from rfl, overloads_type, List.filter_map]
    rfl
  have hset := setOverloads_map (σ := σ) f.key
    ((t.overloads f.key).filter (·.signature != f.signature) ++ [f]) t.functions
  rw [List.map_append] at hset
  unfold TypeInfo.addFunction
  rw [hkept]
  exact congrArg (fun fs => { σ.type t with functions := fs }) hset

theorem addFunctions_type (fs : List Function) :
    (σ.type t).addFunctions (fs.map σ.function) = σ.type (t.addFunctions fs) := by
  induction fs generalizing t with
  | nil => rfl
  | cons f fs ih =>
    have ih := ih (t.addFunction f)
    rw [← addFunction_type] at ih
    exact ih

theorem withHeirs_type (ids : List TypeId) :
    Catalogue.withHeirs ids (σ.type t) = σ.type (Catalogue.withHeirs ids t) := by
  induction ids generalizing t with
  | nil => rfl
  | cons id ids ih =>
    have hstep : Catalogue.addDerived id (σ.type t) = σ.type (Catalogue.addDerived id t) := by
      unfold Catalogue.addDerived
      rw [show (σ.type t).derived = t.derived from rfl]
      split <;> rfl
    show Catalogue.withHeirs ids (Catalogue.addDerived id (σ.type t)) = _
    rw [hstep, ih]
    rfl

end Types

end Renumbering

mutual

/-- The codec mentions only some types by number. -/
def Codec.Within (types : Handle → Prop) : Codec → Prop
  | .native _ => True
  | .aggregate parts => Codec.PartsWithin types parts

def Codec.PartsWithin (types : Handle → Prop) : List (Part × Codec) → Prop
  | [] => True
  | (part, codec) :: rest => types part.type ∧ Codec.Within types codec ∧ Codec.PartsWithin types rest

end

/-- What runs mentions only some types and bodies by number. -/
def Body.Within (types : Handle → Prop) (bodies : Nat → Prop) : Body → Prop
  | .native .. => True
  | .aggregate _ whole => ∀ p ∈ whole.parts, types p.type
  | .host _ => True
  | .script n => bodies n

/-- The type mentions only some types and bodies by number. -/
structure TypeInfo.Within (types : Handle → Prop) (bodies : Nat → Prop) (t : TypeInfo) : Prop where
  codec : ∀ codec ∈ t.codec, codec.Within types
  functions : ∀ entry ∈ t.functions, ∀ f ∈ entry.2, f.body.Within types bodies

section Within

variable {types types' : Handle → Prop} {bodies bodies' : Nat → Prop} {σ : Renumbering}

mutual

theorem Codec.Within.mono (ht : ∀ h, types h → types' h) {codec : Codec} (h : codec.Within types) :
    codec.Within types' := by
  cases codec with
  | native c => exact trivial
  | aggregate parts => exact Codec.PartsWithin.mono ht h

theorem Codec.PartsWithin.mono (ht : ∀ h, types h → types' h) {parts : List (Part × Codec)}
    (h : Codec.PartsWithin types parts) : Codec.PartsWithin types' parts := by
  match parts with
  | [] => exact trivial
  | (part, codec) :: rest =>
    obtain ⟨hpart, hcodec, hrest⟩ := h
    exact ⟨ht _ hpart, hcodec.mono ht, Codec.PartsWithin.mono ht hrest⟩

end

theorem Body.Within.mono (ht : ∀ h, types h → types' h) (hb : ∀ n, bodies n → bodies' n) {body : Body}
    (h : body.Within types bodies) : body.Within types' bodies' := by
  cases body with
  | native | host => exact trivial
  | aggregate op whole => exact fun p hp => ht _ (h p hp)
  | script n => exact hb n h

theorem TypeInfo.Within.mono (ht : ∀ h, types h → types' h) (hb : ∀ n, bodies n → bodies' n) {t : TypeInfo}
    (h : t.Within types bodies) : t.Within types' bodies' :=
  ⟨fun codec hc => (h.codec codec hc).mono ht, fun entry he f hf => (h.functions entry he f hf).mono ht hb⟩

theorem TypeInfo.Within.overloads {t : TypeInfo} (h : t.Within types bodies) {key : FunctionKey} {f : Function}
    (hf : f ∈ t.overloads key) : f.body.Within types bodies := by
  obtain ⟨entry, hentry, hf⟩ := TypeInfo.mem_functions_of_overloads hf
  exact h.functions entry hentry f hf

theorem TypeInfo.Within.addFunction {t : TypeInfo} (h : t.Within types bodies) {f : Function}
    (hf : f.body.Within types bodies) : (t.addFunction f).Within types bodies := by
  refine ⟨h.codec, fun entry hentry g hg => ?_⟩
  rcases TypeInfo.mem_setOverloads hentry with rfl | hentry
  · rcases List.mem_append.mp hg with hg | hg
    · exact h.overloads (List.mem_of_mem_filter hg)
    · rwa [List.mem_singleton.mp hg]
  · exact h.functions entry hentry g hg

theorem TypeInfo.Within.addFunctions {t : TypeInfo} (h : t.Within types bodies) {fs : List Function}
    (hfs : ∀ f ∈ fs, f.body.Within types bodies) : (t.addFunctions fs).Within types bodies := by
  induction fs generalizing t with
  | nil => exact h
  | cons f fs ih =>
    obtain ⟨hf, hfs⟩ := List.forall_mem_cons.mp hfs
    exact ih (h.addFunction hf) hfs

theorem TypeInfo.Within.addDerived {t : TypeInfo} (h : t.Within types bodies) (id : TypeId) :
    (Catalogue.addDerived id t).Within types bodies := by
  unfold Catalogue.addDerived
  split
  · exact h
  · exact ⟨h.codec, h.functions⟩

theorem TypeInfo.Within.withHeirs {t : TypeInfo} (h : t.Within types bodies) (ids : List TypeId) :
    (Catalogue.withHeirs ids t).Within types bodies :=
  List.foldlRecOn ids _ h fun _ hu id _ => TypeInfo.Within.addDerived hu id

section Fixed

variable (ht : ∀ h, types h → σ.handle h = h) (hb : ∀ n, bodies n → σ.number n = n)

theorem Renumbering.part_of_fixed {p : Part} (h : σ.handle p.type = p.type) : σ.part p = p := by
  rw [Renumbering.part, h]

mutual

theorem Renumbering.codec_of_within (ht : ∀ h, types h → σ.handle h = h) {codec : Codec}
    (h : codec.Within types) : σ.codec codec = codec := by
  cases codec with
  | native c => rfl
  | aggregate parts => rw [Renumbering.codec, Renumbering.codecs_of_within ht h]

theorem Renumbering.codecs_of_within (ht : ∀ h, types h → σ.handle h = h) {parts : List (Part × Codec)}
    (h : Codec.PartsWithin types parts) : σ.codecs parts = parts := by
  match parts with
  | [] => rfl
  | (part, codec) :: rest =>
    obtain ⟨hpart, hcodec, hrest⟩ := h
    rw [Renumbering.codecs, Renumbering.part_of_fixed (ht _ hpart), Renumbering.codec_of_within ht hcodec,
      Renumbering.codecs_of_within ht hrest]

end

include ht hb

theorem Renumbering.body_of_within {body : Body} (h : body.Within types bodies) : σ.body body = body := by
  cases body with
  | native | host => rfl
  | aggregate op whole =>
    have hparts : whole.parts.map σ.part = whole.parts :=
      (List.map_congr_left fun p hp => Renumbering.part_of_fixed (ht _ (h p hp))).trans (List.map_id _)
    rw [Renumbering.body, Renumbering.aggregate, hparts]
  | script n => rw [Renumbering.body, hb n h]

theorem Renumbering.function_of_within {f : Function} (h : f.body.Within types bodies) : σ.function f = f := by
  rw [Renumbering.function, Renumbering.body_of_within ht hb h]

/-- A type that mentions only what keeps its number is not changed. -/
theorem Renumbering.type_of_within {t : TypeInfo} (h : t.Within types bodies) : σ.type t = t := by
  have hcodec : t.codec.map σ.codec = t.codec := by
    cases hc : t.codec with
    | none => rfl
    | some codec => rw [Option.map_some, Renumbering.codec_of_within ht (h.codec codec hc)]
  have hfunctions : (t.functions.map fun entry => (entry.1, entry.2.map σ.function)) = t.functions := by
    refine (List.map_congr_left fun entry hentry => ?_).trans (List.map_id _)
    have hfs : entry.2.map σ.function = entry.2 := by
      refine (List.map_congr_left fun f hf => ?_).trans (List.map_id _)
      rw [Renumbering.function_of_within ht hb (h.functions entry hentry f hf)]
      rfl
    rw [hfs]
    rfl
  rw [Renumbering.type, hcodec, hfunctions]

end Fixed

end Within

/-- A gap in the numbering: from some number on, types and bodies have moved up. -/
structure Gap where
  firstType : Nat
  types : Nat
  firstBody : Nat
  bodies : Nat

namespace Gap

variable {g : Gap} {h k n : Nat}

def moves (g : Gap) : Renumbering where
  handle h := if h < g.firstType then h else h + g.types
  number n := if n < g.firstBody then n else n + g.bodies

theorem handle_of_lt (hh : h < g.firstType) : g.moves.handle h = h := if_pos hh

theorem handle_of_le (hh : g.firstType ≤ h) : g.moves.handle h = h + g.types := if_neg (by omega)

theorem number_of_lt (hn : n < g.firstBody) : g.moves.number n = n := if_pos hn

theorem number_of_le (hn : g.firstBody ≤ n) : g.moves.number n = n + g.bodies := if_neg (by omega)

theorem handle_inj : g.moves.handle h = g.moves.handle k ↔ h = k := by
  dsimp only [moves]
  split <;> split <;> omega

end Gap

end Flowscript
