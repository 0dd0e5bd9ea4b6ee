import Flowscript.Proofs.Loading.DeclaredScripts
import Flowscript.Proofs.Run.StepBudget
import Flowscript.Proofs.Types.MirroredCatalogues

/-! # Machines on which calls find the same conditions

What a call comes to may depend on how deep it is nested, on the world, on the stack in use and on the
settings. Every function leaves all that as it was, called at the outside or inside of other calls. So the
machines before and after a call are comparable, and those before and after a default is read.
-/
namespace Flowscript

def Pace.limited : Pace where
  rel t t' := t'.settings = t.settings ∧ t'.capacity = t.capacity
  refl _ := ⟨rfl, rfl⟩
  trans h h' := ⟨h'.1.trans h.1, h'.2.trans h.2⟩
  tick t := ⟨t.settings_tick, t.capacity_tick⟩

/-- Calls find the same conditions on both machines: the standing is the same, and so are the settings and the
room of the stack of each interpreter. -/
def Machine.Comparable (m m' : Machine) : Prop := m.Kept .limited m'

namespace Machine.Comparable

variable {m m' m'' : Machine}

theorem refl (m : Machine) : m.Comparable m := Kept.refl m

theorem trans (h : m.Comparable m') (h' : m'.Comparable m'') : m.Comparable m'' := Kept.trans h h'

theorem of_eq (hstanding : m'.standing = m.standing) (hmeter : m'.meter = m.meter) : m.Comparable m' :=
  ⟨hstanding, .of_meter hmeter⟩

end Machine.Comparable

/-- The computation leaves the machine comparable to what it was. -/
def Exec.Levels {ε α : Type} (x : Exec ε α) : Prop :=
  ∀ k m, Ensures x k m (fun _ m' => m.Comparable m') fun _ m' => m.Comparable m'

theorem Exec.levels_iff {ε α : Type} {x : Exec ε α} (seat : Seat) :
    x.Levels ↔ (Conduct.free .limited seat).pact.Keeps fun _ => x :=
  ⟨fun h k m _ => .const (h k m), fun h _ _ => Pact.Keeps.ensures h trivial⟩

section Calls

variable {invoke : Invoke} (h : ∀ f args ret, (invoke f args ret).Levels)
include h

theorem calls_limited (seat : Seat) : (Conduct.free .limited seat).pact.Calls fun _ => invoke :=
  fun f args ret => (Exec.levels_iff _).mp (h f args ret)

theorem levels_runScript (number : Nat) (args : List Value) (ret : Option Place) :
    (runScript invoke number args ret).Levels := by
  intro k m
  refine Ensures.bind (P := fun _ m' => m' = m) (readyProgram_ensures (fun _ _ => rfl) fun _ => .refl m)
    fun p m' hm => ?_
  obtain rfl := hm
  refine Ensures.bind (P := fun s m'' => m'' = m' ∧ s = m') ⟨rfl, rfl⟩ fun s m'' hs => ?_
  obtain ⟨rfl, rfl⟩ := hs
  -- To enter a call begins a new budget at most, which is no part of what is compared.
  have henter : s.Paced .limited (p.enter s.seat args s) := by
    intro other
    unfold Machine.meter
    rw [Program.interpreter_enter]
    by_cases ho : other = s.seat
    · rw [ho, Machine.interpreter_modifyInterpreter]
      exact ⟨rfl, rfl⟩
    · rw [Machine.interpreter_modifyInterpreter_of_ne _ ho]
      exact ⟨rfl, rfl⟩
  have hrun : Ensures (p.execute invoke s.seat args ret) k s
      (fun _ m' => m'.standing = s.standing ∧ (p.enter s.seat args s).Paced .limited m')
      fun _ m' => m'.standing = s.standing ∧ (p.enter s.seat args s).Paced .limited m' :=
    (Program.settles_execute (calls_limited h s.seat) (fun _ _ _ _ => trivial) ret).ensures
  have hlevel : ∀ m', m'.standing = s.standing ∧ (p.enter s.seat args s).Paced .limited m' →
      s.Comparable m' := fun m' hm' => ⟨hm'.1, henter.trans hm'.2⟩
  exact Ensures.exec_mapError_iff.mpr (hrun.mono (fun _ => hlevel) fun _ => hlevel)

theorem levels_run (f : Function) (args : List Value) (ret : Option Place) :
    (f.run invoke args ret).Levels := by
  have hcalls := calls_limited h .own
  unfold Function.run
  cases f.body with
  | native op shape destructor =>
    exact (Exec.levels_iff .own).mpr (NativeOp.keeps_run op shape destructor args ret)
  | aggregate op whole => exact (Exec.levels_iff _).mpr (AggregateOp.keeps_run hcalls op whole args ret)
  | host host => exact (Exec.levels_iff _).mpr (HostFunction.keeps_run hcalls host f args ret)
  | script number => exact levels_runScript h number args ret

end Calls

/-- Whatever is called, the machine is comparable afterwards to what it was. -/
theorem levels_invokeWithin (depth : Nat) (f : Function) (args : List Value) (ret : Option Place) :
    (invokeWithin depth f args ret).Levels := by
  induction depth generalizing f args ret with
  | zero => exact fun _ m => .refl m
  | succ depth ih =>
    unfold invokeWithin
    cases f.check (args.map Value.argument) with
    | error e => exact fun _ m => .refl m
    | ok _ => exact levels_run ih f args ret

theorem levels_checkDefault (t : TypeInfo) (j : Json) : (Loader.checkDefault t j).Levels := by
  refine (Exec.levels_iff .own).mpr ((Exec.keeps_allocate t.layout).bind fun place =>
    (Invoke.keeps_decodeAt (calls_limited (levels_invokeWithin callDepth) .own) t j place).attempt.bind
      fun outcome => ?_)
  cases outcome with
  | ok _ => exact (Exec.keeps_destroy _ _).bind fun _ => Exec.keeps_free place
  | error e => exact (Exec.keeps_free place).bind fun _ => .throw e

namespace Loader

theorem Noted.comparable {m m' : Machine} (h : Noted m m') : m.Comparable m' := by
  obtain ⟨journal, rfl⟩ := h
  exact .of_eq rfl rfl

section Found

variable {k : Context} {m m₁ : Machine}

theorem Finds.comparable {es : List ScriptError} {x : Option Member}
    (h : Finds k m script blocked names f es x m₁) : m.Comparable m₁ := by
  have hlevel := fun t j => levels_checkDefault t j k m
  cases h with
  | refused | bare => exact .refl m
  | read _ _ hread => exact (hlevel _ _).ok hread
  | unread _ _ hread => exact (hlevel _ _).error hread

theorem FindsAll.comparable {fields : List FieldDecl} {es : List ScriptError} {ms : List Member}
    (h : FindsAll k script blocked m names fields es ms m₁) : m.Comparable m₁ := by
  induction h with
  | nil m _ => exact .refl m
  | cons first _ ih => exact first.comparable.trans ih

theorem Takes.comparable {s : Script} {es : List ScriptError} {h : Handle} {c : Catalogue}
    (ht : Takes k m s blocked es h c m₁) : m.Comparable m₁ := by
  cases ht with
  | intro found journal => exact found.comparable.trans (.of_eq rfl rfl)

theorem TakesAll.comparable {plan : List (Candidate × List String)} {es : List ScriptError} {hs : List Handle}
    {c : Catalogue} (ht : TakesAll k m plan es hs c m₁) : m.Comparable m₁ := by
  induction ht with
  | nil => exact .refl _
  | cons first _ ih => exact first.comparable.trans ih

end Found

end Loader

end Flowscript

/-! ## Defaults that can be repeated

Whether a default can be read depends on the types it is read with and on what is called to construct parts
that it leaves out. With a renumbered catalogue and a machine on which calls find the same conditions, the
outcome is the same if those constructors come to the same.
-/
namespace Flowscript

variable {ε δ α α' β β' : Type}

/-- Two outcomes are related successes or the same failure. -/
inductive Alike (R : α → α' → Prop) : Except ε α → Except ε α' → Prop where
  | ok {a : α} {a' : α'} (h : R a a') : Alike R (.ok a) (.ok a')
  | error (e : ε) : Alike R (.error e) (.error e)

namespace Exec

/-- What a computation comes to, whatever it does to the machine. -/
def outcome (x : Exec ε α) (k : Context) (m : Machine) : Except ε α :=
  match x k m with
  | .ok a _ => .ok a
  | .error e _ => .error e

theorem outcome_of_ensures {x : Exec ε α} {k : Context} {m : Machine} {a : α}
    (h : Ensures x k m (fun b _ => b = a) fun _ _ => False) : x.outcome k m = .ok a := by
  unfold Ensures at h
  unfold outcome
  cases hx : x k m with
  | ok b m' =>
    rw [hx] at h
    exact congrArg Except.ok h
  | error e m' =>
    rw [hx] at h
    exact h.elim

def after (x : Exec ε α) (k : Context) (m : Machine) : Machine :=
  match x k m with
  | .ok _ m => m
  | .error _ m => m

theorem Levels.after {x : Exec ε α} (hx : x.Levels) (k : Context) (m : Machine) : m.Comparable (x.after k m) := by
  have hlevel := hx k m
  unfold Ensures at hlevel
  unfold Exec.after
  cases h : x k m <;> rw [h] at hlevel <;> exact hlevel

variable {m₀ : Machine}

/-- Two computations, each in a context of its own, come to the same on machines that are comparable to a given
one, and leave them so. -/
def EndAlike (m₀ : Machine) (k k' : Context) (R : α → α' → Prop) (x : Exec ε α) (y : Exec ε α') : Prop :=
  ∀ m m', m₀.Comparable m → m₀.Comparable m' → Alike R (x.outcome k m) (y.outcome k' m') ∧
    m₀.Comparable (x.after k m) ∧ m₀.Comparable (y.after k' m')

namespace EndAlike

variable {k k' : Context} {R : α → α' → Prop} {S : β → β' → Prop} {x : Exec ε α} {y : Exec ε α'}

theorem of_levels (hx : x.Levels) (hy : y.Levels)
    (h : ∀ m m', m₀.Comparable m → m₀.Comparable m' → Alike R (x.outcome k m) (y.outcome k' m')) :
    EndAlike m₀ k k' R x y := fun m m' hm hm' =>
  ⟨h m m' hm hm', hm.trans (hx.after k m), hm'.trans (hy.after k' m')⟩

theorem pure {a : α} {a' : α'} (h : R a a') :
    EndAlike m₀ k k' R (Pure.pure a : Exec ε α) (Pure.pure a') := fun _ _ hm hm' => ⟨.ok h, hm, hm'⟩

theorem throw (e : ε) :
    EndAlike m₀ k k' R (MonadExcept.throw e : Exec ε α) (MonadExcept.throw e : Exec ε α') :=
  fun _ _ hm hm' => ⟨.error e, hm, hm'⟩

theorem bind {f : α → Exec ε β} {f' : α' → Exec ε β'} (h : EndAlike m₀ k k' R x y)
    (hf : ∀ a a', R a a' → EndAlike m₀ k k' S (f a) (f' a')) : EndAlike m₀ k k' S (x >>= f) (y >>= f') := by
  intro m m' hm hm'
  obtain ⟨halike, hafter, hafter'⟩ := h m m' hm hm'
  simp only [outcome, after, Bind.bind, ReaderT.bind, EStateM.bind] at halike hafter hafter' ⊢
  cases hx : x k m <;> cases hy : y k' m' <;> rw [hx, hy] at halike <;> rw [hx] at hafter <;>
    rw [hy] at hafter' <;> cases halike
  · next hR => exact hf _ _ hR _ _ hafter hafter'
  · exact ⟨.error _, hafter, hafter'⟩

theorem mapError (f : ε → δ) (h : EndAlike m₀ k k' R x y) :
    EndAlike m₀ k k' R (Exec.mapError f x) (Exec.mapError f y) := by
  intro m m' hm hm'
  obtain ⟨halike, hafter, hafter'⟩ := h m m' hm hm'
  simp only [outcome, after, Exec.mapError] at halike hafter hafter' ⊢
  cases hx : x k m <;> cases hy : y k' m' <;> rw [hx, hy] at halike <;> rw [hx] at hafter <;>
    rw [hy] at hafter' <;> cases halike
  · next hR => exact ⟨.ok hR, hafter, hafter'⟩
  · exact ⟨.error _, hafter, hafter'⟩

theorem attempt (h : EndAlike m₀ k k' R x y) :
    EndAlike m₀ k k' (Alike R) (Exec.attempt x : Exec δ _) (Exec.attempt y) := by
  intro m m' hm hm'
  obtain ⟨halike, hafter, hafter'⟩ := h m m' hm hm'
  simp only [outcome, after, Exec.attempt] at halike hafter hafter' ⊢
  cases hx : x k m <;> cases hy : y k' m' <;> rw [hx, hy] at halike <;> rw [hx] at hafter <;>
    rw [hy] at hafter' <;> exact ⟨.ok halike, hafter, hafter'⟩

theorem modifyGet {f : Machine → α × Machine} {f' : Machine → α' × Machine} (h : ∀ m m', R (f m).1 (f' m').1)
    (hf : ∀ m : Machine, m.Comparable (f m).2) (hf' : ∀ m : Machine, m.Comparable (f' m).2) :
    EndAlike m₀ k k' R (modifyGet f : Exec ε α) (modifyGet f' : Exec ε α') :=
  fun m m' hm hm' => ⟨.ok (h m m'), hm.trans (hf m), hm'.trans (hf' m')⟩

theorem modify {f f' : Machine → Machine} (hf : ∀ m : Machine, m.Comparable (f m))
    (hf' : ∀ m : Machine, m.Comparable (f' m)) :
    EndAlike m₀ k k' Eq (modify f : Exec ε PUnit) (modify f' : Exec ε PUnit) :=
  .modifyGet (fun _ _ => rfl) hf hf'

theorem catalogue : EndAlike m₀ k k' (fun c c' => c = k.catalogue ∧ c' = k'.catalogue)
    (Exec.catalogue : Exec ε Catalogue) (Exec.catalogue : Exec ε Catalogue) :=
  fun _ _ hm hm' => ⟨.ok ⟨rfl, rfl⟩, hm, hm'⟩

theorem ite {p p' : Prop} [Decidable p] [Decidable p'] (hp : p ↔ p') {x₁ : Exec ε α} {y₁ : Exec ε α'}
    (h : EndAlike m₀ k k' R x y) (h₁ : EndAlike m₀ k k' R x₁ y₁) :
    EndAlike m₀ k k' R (if p then x else x₁) (if p' then y else y₁) := by
  by_cases hp' : p
  · rw [if_pos hp', if_pos (hp.mp hp')]
    exact h
  · rw [if_neg hp', if_neg fun h => hp' (hp.mpr h)]
    exact h₁

end EndAlike

end Exec

def Place.Alike (p p' : Place) : Prop := p.address = p'.address

theorem Place.Alike.shift {p p' : Place} (h : p.Alike p') (n : Nat) : (p.shift n).Alike (p'.shift n) :=
  congrArg (fun address : Address => address.shift n) h

/-- Both results can be put where the caller wants them, or neither can. A value that is borrowed cannot. -/
def ResultAlike (r r' : Option Value) : Prop := r.all Value.isOwning = r'.all Value.isOwning

namespace Exec

variable {m₀ : Machine} {k k' : Context} {p p' : Place}

theorem endAlike_modifyMemory (f f' : Memory → Memory) :
    EndAlike m₀ k k' Eq (modifyMemory f : Exec ε Unit) (modifyMemory f') :=
  .modify (fun _ => .of_eq rfl rfl) fun _ => .of_eq rfl rfl

theorem endAlike_allocate (l : Layout) :
    EndAlike m₀ k k' Place.Alike (allocate l : Exec ε Place) (allocate l) :=
  .modifyGet (fun _ _ => rfl) (fun _ => .of_eq rfl rfl) fun _ => .of_eq rfl rfl

theorem endAlike_free (p p' : Place) : EndAlike m₀ k k' Eq (free p : Exec ε Unit) (free p') :=
  endAlike_modifyMemory _ _

theorem endAlike_destroy (destructor : Option Destructor) (p p' : Place) :
    EndAlike m₀ k k' Eq (destroy destructor p : Exec ε Unit) (destroy destructor p') := by
  cases destructor with
  | none => exact .pure rfl
  | some d => exact .modify (fun _ => .of_eq rfl rfl) fun _ => .of_eq rfl rfl

theorem endAlike_orEnd (destructor : Option Destructor) (p p' : Place) {rest rest' : Exec ε Unit}
    (h : EndAlike m₀ k k' Eq rest rest') :
    EndAlike m₀ k k' Eq (orEnd destructor p rest) (orEnd destructor p' rest') := by
  refine h.attempt.bind fun o o' ho => ?_
  cases ho with
  | ok _ => exact .pure rfl
  | error e => exact (endAlike_destroy _ _ _).bind fun _ _ _ => .throw e

end Exec

namespace Invoke

open Exec

variable {m₀ : Machine} {types : Handle → Prop} {σ : Renumbering} {k k' : Context} {invoke : Invoke}
  {p p' : Place}

/-- What constructs values of some types without arguments comes to the same in two contexts, but for the numbers
in it. -/
def Repeats (m₀ : Machine) (types : Handle → Prop) (σ : Renumbering) (k k' : Context) (invoke : Invoke) : Prop :=
  ∀ h f, types h → (k.catalogue.info h).resolve (.operator .construct) [] = .ok f → ∀ p p', p.Alike p' →
    EndAlike m₀ k k' ResultAlike (invoke f [] (some p)) (invoke (σ.function f) [] (some p'))

theorem settleAt_outcome (t : TypeInfo) (p : Place) (r : Option Value) (k : Context) (m : Machine) :
    (settleAt t p r).outcome k m =
      if r.all Value.isOwning then .ok () else .error (.borrowedConstruction t.name) := by
  cases r with
  | none => rfl
  | some v =>
    obtain ⟨type, form, held⟩ := v
    cases held <;> rfl

theorem endAlike_settleAt (t : TypeInfo) (p p' : Place) {r r' : Option Value} (hr : ResultAlike r r') :
    EndAlike m₀ k k' Eq (settleAt t p r) (settleAt (σ.type t) p' r') := by
  refine .of_levels ((levels_iff .own).mpr (keeps_settleAt t p r))
    ((levels_iff .own).mpr (keeps_settleAt _ p' r')) fun m m' _ _ => ?_
  rw [settleAt_outcome, settleAt_outcome, hr]
  split
  · exact .ok rfl
  · exact .error _

theorem Repeats.defaultAt (hi : invoke.Repeats m₀ types σ k k') {h : Handle} (hh : types h) (hp : p.Alike p') :
    EndAlike m₀ k k' Eq (defaultAt invoke (k.catalogue.info h) p)
      (defaultAt invoke (σ.type (k.catalogue.info h)) p') := by
  have haligned : p.isAligned (k.catalogue.info h).layout.align =
      p'.isAligned (σ.type (k.catalogue.info h)).layout.align := by
    unfold Place.isAligned
    rw [hp]
    rfl
  unfold Invoke.defaultAt constructAt callKey
  rw [haligned, List.map_nil, Renumbering.resolve_type]
  refine .ite Iff.rfl (EndAlike.bind (R := ResultAlike) ?_ fun _ _ hr => endAlike_settleAt _ p p' hr) (.throw _)
  cases hf : (k.catalogue.info h).resolve (.operator .construct) [] with
  | error e => exact .throw e
  | ok f => exact hi h f hh hf p p' hp

theorem endAlike_typeInfo (ha : k.catalogue.Agrees types σ k'.catalogue) {h : Handle} (hh : types h) :
    EndAlike m₀ k k' (fun t t' => t = k.catalogue.info h ∧ t' = σ.type (k.catalogue.info h))
      (typeInfo h : Exec ε TypeInfo) (typeInfo (σ.handle h)) := by
  refine EndAlike.catalogue.bind ?_
  rintro _ _ ⟨rfl, rfl⟩
  exact .pure ⟨rfl, ha.same h hh⟩

mutual

theorem endAlike_decode (ha : k.catalogue.Agrees types σ k'.catalogue) (hi : invoke.Repeats m₀ types σ k k')
    {codec : Codec} (hc : codec.Within types) (j : Json) {p p' : Place} (hp : p.Alike p') :
    EndAlike m₀ k k' Eq (decode invoke codec j p) (decode invoke (σ.codec codec) j p') := by
  cases codec with
  | native c =>
    unfold Renumbering.codec decode
    cases c.decode j with
    | ok data => exact endAlike_modifyMemory _ _
    | error e => exact .throw e
  | aggregate parts =>
    unfold Renumbering.codec decode
    cases j with
    | obj entries => exact endAlike_decodeParts ha hi hc entries hp
    | _ => exact .throw _

theorem endAlike_decodeParts (ha : k.catalogue.Agrees types σ k'.catalogue)
    (hi : invoke.Repeats m₀ types σ k k') {parts : List (Part × Codec)} (hparts : Codec.PartsWithin types parts)
    (entries : List (String × Json)) {p p' : Place} (hp : p.Alike p') :
    EndAlike m₀ k k' Eq (decodeParts invoke parts entries p) (decodeParts invoke (σ.codecs parts) entries p') := by
  match parts with
  | [] =>
    unfold Renumbering.codecs decodeParts
    exact .pure rfl
  | (part, codec) :: rest =>
    obtain ⟨hpart, hcodec, hrest⟩ := hparts
    have hplace := hp.shift part.offset
    have hrest := endAlike_orEnd part.destructor (p.shift part.offset) (p'.shift part.offset)
      (endAlike_decodeParts ha hi hrest entries hp)
    unfold Renumbering.codecs decodeParts
    dsimp only [Renumbering.part]
    cases entries.lookup part.name with
    | some j => exact ((endAlike_decode ha hi hcodec j hplace).mapError _).bind fun _ _ _ => hrest
    | none =>
      cases part.default with
      | some j => exact ((endAlike_decode ha hi hcodec j hplace).mapError _).bind fun _ _ _ => hrest
      | none =>
        refine (endAlike_typeInfo ha hpart).bind ?_
        rintro _ _ ⟨rfl, rfl⟩
        exact (hi.defaultAt hpart hplace).bind fun _ _ _ => hrest

end

section Agreeing

variable (ha : k.catalogue.Agrees types σ k'.catalogue) (hi : invoke.Repeats m₀ types σ k k')
include ha hi

theorem endAlike_decodeAt {t : TypeInfo} (ht : ∀ codec ∈ t.codec, codec.Within types) (j : Json)
    (hp : p.Alike p') : EndAlike m₀ k k' Eq (decodeAt invoke t j p) (decodeAt invoke (σ.type t) j p') := by
  unfold decodeAt
  dsimp only [Renumbering.type]
  cases hcodec : t.codec with
  | some codec => exact endAlike_decode ha hi (ht codec hcodec) j hp
  | none => exact .throw _

theorem endAlike_defaultPart {part : Part} (hpart : types part.type) (hp : p.Alike p') :
    EndAlike m₀ k k' Eq (defaultPart invoke part p) (defaultPart invoke (σ.part part) p') := by
  refine (endAlike_typeInfo ha hpart).bind ?_
  rintro _ _ ⟨rfl, rfl⟩
  dsimp only [Renumbering.part]
  cases part.default with
  | some j => exact (endAlike_decodeAt ha hi (ha.within _ hpart).codec j hp).mapError _
  | none => exact hi.defaultAt hpart hp

omit ha hi in
theorem endAlike_buildParts {init init' : Part → Place → Exec CallError Unit} {parts : List Part}
    (hinit : ∀ part ∈ parts, EndAlike m₀ k k' Eq (init part (p.shift part.offset))
      (init' (σ.part part) (p'.shift part.offset))) :
    EndAlike m₀ k k' Eq
      (buildParts (fun part => p.shift part.offset) (·.destructor)
        (fun part => init part (p.shift part.offset)) parts)
      (buildParts (fun part => p'.shift part.offset) (·.destructor)
        (fun part => init' part (p'.shift part.offset)) (parts.map σ.part)) := by
  induction parts with
  | nil => exact .pure rfl
  | cons part rest ih =>
    obtain ⟨hpart, hrest⟩ := List.forall_mem_cons.mp hinit
    exact hpart.bind fun _ _ _ => endAlike_orEnd _ _ _ (ih hrest)

end Agreeing

end Invoke

section Bodies

variable {m₀ : Machine} {types : Handle → Prop} {σ : Renumbering} {k k' : Context} {invoke : Invoke}
  {p p' : Place}

namespace NativeOp

open Exec

theorem endAlike_argumentData (shape : Shape) (index : Nat) :
    EndAlike m₀ k k' (fun _ _ => False) (argumentData shape [] index) (argumentData shape [] index) :=
  .throw _

theorem endAlike_takeData (shape : Shape) (index : Nat) :
    EndAlike m₀ k k' (fun _ _ => False) (takeData shape [] index) (takeData shape [] index) := .throw _

theorem endAlike_run (op : NativeOp) (shape : Shape) (destructor : Option Destructor) (p p' : Place) :
    EndAlike m₀ k k' ResultAlike (op.run shape destructor [] (some p)) (op.run shape destructor [] (some p')) := by
  cases op with
  | default => exact (endAlike_modifyMemory _ _).bind fun _ _ _ => .pure rfl
  | moveConstruct | moveAssign => exact (endAlike_takeData _ _).bind fun _ _ hfalse => hfalse.elim
  | copyConstruct | copyAssign | compare | arithmetic | concat | largest | twice | byteLength | startsWith =>
    exact (endAlike_argumentData _ _).bind fun _ _ hfalse => hfalse.elim

end NativeOp

namespace AggregateOp

open Exec

theorem endAlike_run (ha : k.catalogue.Agrees types σ k'.catalogue) (hi : invoke.Repeats m₀ types σ k k')
    (op : AggregateOp) {whole : Aggregate} (hw : ∀ part ∈ whole.parts, types part.type) (hp : p.Alike p') :
    EndAlike m₀ k k' ResultAlike (op.run invoke whole [] (some p))
      (op.run invoke (σ.aggregate whole) [] (some p')) := by
  cases op with
  | default =>
    refine EndAlike.bind (R := Eq) (Invoke.endAlike_buildParts fun part hpart => ?_) fun _ _ _ => .pure rfl
    exact Invoke.endAlike_defaultPart ha hi (hw part hpart) (hp.shift part.offset)
  | copy | move | equal | notEqual => exact .throw _

end AggregateOp

end Bodies

/-- If what constructs values comes to the same as long as the calls in it do, it does however deep they nest. -/
theorem repeats_invokeWithin {m₀ : Machine} {types : Handle → Prop} {σ : Renumbering} {k k' : Context}
    (hrun : ∀ depth h f, types h → (k.catalogue.info h).resolve (.operator .construct) [] = .ok f →
      (invokeWithin depth).Repeats m₀ types σ k k' → ∀ p p', p.Alike p' →
        Exec.EndAlike m₀ k k' ResultAlike (f.run (invokeWithin depth) [] (some p))
          ((σ.function f).run (invokeWithin depth) [] (some p'))) (depth : Nat) :
    (invokeWithin depth).Repeats m₀ types σ k k' := by
  induction depth with
  | zero => exact fun _ _ _ _ _ _ _ => .throw _
  | succ depth ih =>
    intro h f hh hf p p' hp
    unfold invokeWithin
    rw [List.map_nil, Renumbering.check_function]
    cases f.check [] with
    | error e => exact .throw _
    | ok _ => exact hrun depth h f hh hf ih p p' hp

theorem endAlike_checkDefault {m₀ : Machine} {types : Handle → Prop} {σ : Renumbering} {k k' : Context}
    (ha : k.catalogue.Agrees types σ k'.catalogue) (hi : invoke.Repeats m₀ types σ k k') {t : TypeInfo}
    (ht : ∀ codec ∈ t.codec, codec.Within types) (j : Json) :
    Exec.EndAlike m₀ k k' Eq (Loader.checkDefault t j) (Loader.checkDefault (σ.type t) j) := by
  unfold Loader.checkDefault
  refine (Exec.endAlike_allocate t.layout).bind fun p p' hp =>
    (Invoke.endAlike_decodeAt ha hi ht j hp).attempt.bind fun o o' ho => ?_
  cases ho with
  | ok _ => exact (Exec.endAlike_destroy _ _ _).bind fun _ _ _ => Exec.endAlike_free _ _
  | error e => exact (Exec.endAlike_free _ _).bind fun _ _ _ => .throw e

end Flowscript
