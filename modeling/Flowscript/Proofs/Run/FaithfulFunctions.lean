import Flowscript.Proofs.Run.CallCare
import Flowscript.Proofs.Run.CallStanding
import Flowscript.Proofs.Run.ReferenceLineage
import Flowscript.Proofs.Types.FunctionTable

/-! # Functions that keep faith

What a call may refer to is lent to it: the data of its arguments and of the world, and values of the
host. A function keeps faith when a reference that it gives back leads into what was lent, to data of
its declared type, and when all that inputs are given meanwhile is sound. This is asked only of runs in
which no value went astray and no reference was left dangling.

Constructing values, copying them and reading them from documents are calls of functions; so they keep
faith if the functions do.
-/
namespace Flowscript

/-- The data is live, and of the type of the input it was given to. -/
def Use.Sound (lies : Layouts) (u : Use) : Prop := Lent lies u.alive u.place u.type

def Value.IsLent (lies : Layouts) (lent : List Charge) (v : Value) : Prop :=
  ∀ place, v.place? = some place → Lent lies lent place v.type

/-- What a function gives back is as declared, of its type and form: a value of its own, or a reference
to what was lent. -/
def Function.Gives (lies : Layouts) (lent : List Charge) (f : Function) (result : Option Value) :
    Prop :=
  ∀ r v, f.result = some r → result = some v → v.type = r.type ∧ v.isOwning = r.form.isOwning ∧
    (v.isOwning = false → ∀ place, v.place? = some place → Lent lies lent place r.type)

namespace Program

def DeclaredAs (c : Catalogue) (p : Program) (f : Function) : Prop :=
  (f.result.map fun r => (r.type, r.form)) = p.result.map (fun r => ((c.info r.1).id, r.2)) ∧
    ∀ i, p.thisIndex? = some i → f.params[i]?.map (·.type) = p.thisType

end Program

namespace Context

def Declares (w : Context) (f : Function) : Prop :=
  ∀ number body p, f.body = .script number → w.bodies[number]? = some body → body.state = .ready p →
    p.DeclaredAs w.catalogue f

/-- A program that is typed, and calls only functions that are declared as they should be. -/
structure Suits (lies : Layouts) (w : Context) (p : Program) : Prop where
  formed : p.WellFormed w.catalogue
  typed : p.Typed lies w.catalogue
  declares : ∀ id n f, p.node? id = some n → n.op = .call f → w.Declares f

/-- All programs and all functions of types are as they should be. -/
structure Sound (lies : Layouts) (w : Context) : Prop where
  whole : ∀ type, lies type 0 type
  programs : ∀ p, w.Offers p → w.Suits lies p
  functions : ∀ h key f, f ∈ (w.catalogue.info h).overloads key → w.Declares f

end Context

namespace Machine

structure Onward (m m' : Machine) : Prop where
  strays : m.care.strays.length ≤ m'.care.strays.length
  dangling : m.watch.dangling.length ≤ m'.watch.dangling.length

/-- No value went astray and no reference was left dangling. -/
structure Unmarred (m m' : Machine) : Prop where
  strays : m'.care.strays.length = m.care.strays.length
  dangling : m'.watch.dangling.length = m.watch.dangling.length

/-- All that inputs were given is sound, but for what they were given before. -/
def Watched (lies : Layouts) (start : List Use) (m : Machine) : Prop :=
  ∀ u ∈ m.watch.uses, u ∈ start ∨ u.Sound lies

def Worldly (lies : Layouts) (lent : List Charge) (m : Machine) : Prop :=
  ∀ seat type place, (m.interpreter seat).world = some (type, place) → Lent lies lent place type

/-- What a call may rely on: what is lent is alive, and sound so far. -/
structure Fair (lies : Layouts) (hosts lent : List Charge) (start : List Use) (m : Machine) :
    Prop where
  ordered : m.Ordered
  alive : ∀ v ∈ lent, v ∈ m.care.alive
  hosts : ∀ v ∈ hosts, v ∈ lent
  world : m.Worldly lies lent
  watched : m.Watched lies start

variable {m m' m'' : Machine} {lies : Layouts} {hosts lent extra : List Charge} {start : List Use}

theorem Onward.refl (m : Machine) : m.Onward m := ⟨Nat.le_refl _, Nat.le_refl _⟩

theorem Onward.trans (h : m.Onward m') (h' : m'.Onward m'') : m.Onward m'' :=
  ⟨Nat.le_trans h.strays h'.strays, Nat.le_trans h.dangling h'.dangling⟩

theorem Unmarred.split (h : m.Unmarred m'') (h₁ : m.Onward m') (h₂ : m'.Onward m'') :
    m.Unmarred m' ∧ m'.Unmarred m'' := by
  have := h.strays
  have := h.dangling
  have := h₁.strays
  have := h₁.dangling
  have := h₂.strays
  have := h₂.dangling
  exact ⟨⟨by omega, by omega⟩, by omega, by omega⟩

/-- Nothing is remembered and nothing goes astray. -/
theorem Onward.of_eq (hwatch : m'.watch = m.watch) (hstrays : m'.care.strays = m.care.strays) :
    m.Onward m' := ⟨by rw [hstrays], by rw [hwatch]⟩

theorem Watched.of_watch (h : m.Watched lies start) (hwatch : m'.watch = m.watch) :
    m'.Watched lies start := by
  unfold Watched
  rwa [hwatch]

@[simp] theorem watch_modifyInterpreter (m : Machine) (seat : Seat)
    (f : Interpreter → Interpreter) : (m.modifyInterpreter seat f).watch = m.watch := by
  cases seat <;> rfl

/-- A reference that is given back is left dangling if it leads to no value in care. -/
theorem watchResult_cases (m : Machine) (result : Option Value) :
    (m.watchResult result = m ∧ ∀ v place, result = some v → v.isOwning = false →
      v.place? = some place → m.care.covers place = true) ∨
      ∃ place, m.watchResult result = { m with watch.dangling := place :: m.watch.dangling } := by
  cases result with
  | none => exact .inl ⟨rfl, fun _ _ hv => nomatch hv⟩
  | some v =>
    cases hv : v.isOwning with
    | true =>
      refine .inl ⟨by simp only [watchResult, hv, if_true], fun u _ hu howning => ?_⟩
      cases hu
      rw [hv] at howning
      cases howning
    | false =>
      cases hplace : v.place? with
      | none =>
        refine .inl ⟨by simp only [watchResult, hv, hplace, Bool.false_eq_true, if_false],
          fun u _ hu _ hsome => ?_⟩
        cases hu
        rw [hplace] at hsome
        cases hsome
      | some place =>
        have hreference : m.watchResult (some v) = m.watchReference place := by
          simp only [watchResult, hv, hplace, Bool.false_eq_true, if_false]
        rw [hreference, watchReference]
        cases hcovers : m.care.covers place with
        | true =>
          refine .inl ⟨rfl, fun u source hu _ hsource => ?_⟩
          cases hu
          rw [hplace] at hsource
          cases hsource
          exact hcovers
        | false => exact .inr ⟨place, rfl⟩

theorem onward_watchResult (m : Machine) (result : Option Value) : m.Onward (m.watchResult result) := by
  rcases m.watchResult_cases result with ⟨heq, -⟩ | ⟨place, heq⟩
  · rw [heq]
    exact .refl m
  · rw [heq]
    exact ⟨Nat.le_refl _, Nat.le_succ _⟩

theorem Watched.watchResult (h : m.Watched lies start) (result : Option Value) :
    (m.watchResult result).Watched lies start := by
  rcases m.watchResult_cases result with ⟨heq, -⟩ | ⟨place, heq⟩ <;> rw [heq] <;> exact h

theorem Unmarred.covers {v : Value} {place : Place} (h : m.Unmarred (m.watchResult (some v)))
    (hv : v.isOwning = false) (hplace : v.place? = some place) : m.care.covers place = true := by
  rcases m.watchResult_cases (some v) with ⟨-, hcovers⟩ | ⟨place, heq⟩
  · exact hcovers v place rfl hv hplace
  · have hlength := h.dangling
    rw [heq, List.length_cons] at hlength
    omega

theorem Worldly.of_standing (h : m.Worldly lies lent) (hs : m'.standing = m.standing) :
    m'.Worldly lies lent := by
  intro seat type place hworld
  have hstance := congrFun (congrArg Standing.stance hs) seat
  exact h seat type place ((congrArg Stance.world hstance).symm.trans hworld)

theorem Carries.settles (h : m.Carries [] extra m') (hm : m.Ordered) (hu : m.Unmarred m') :
    m.Settles m' extra := by
  refine (((iff_leaves.mp h).settles hm).resolve_left fun hs => ?_).2
  have := hs.grew
  have := hu.strays
  omega

theorem Fair.of_carries (h : m.Fair lies hosts lent start) (hc : m.Carries [] extra m')
    (hu : m.Unmarred m') (hs : m'.standing = m.standing) (hw : m'.Watched lies start) :
    m'.Fair lies hosts lent start := by
  have hsettles := hc.settles h.ordered hu
  refine ⟨hsettles.ordered, fun v hv => ?_, h.hosts, h.world.of_standing hs, hw⟩
  exact hsettles.alive.mem_iff.mpr (List.mem_append_right _ (h.alive v hv))

end Machine

/-- Functions keep faith, among the functions and programs of a context. -/
def Invoke.Faithful (lies : Layouts) (hosts : List Charge) (w : Context) (invoke : Invoke) : Prop :=
  ∀ f args ret m lent start,
    Ensures (invoke f args ret) w m
      (fun result m' => m.Onward m' ∧ (m.Unmarred m' → w.Declares f →
        (∀ v ∈ args, v.IsLent lies lent) → m.Fair lies hosts lent start →
          m'.Watched lies start ∧ f.Gives lies lent result))
      fun _ m' => m.Onward m' ∧ (m.Unmarred m' → w.Declares f →
        (∀ v ∈ args, v.IsLent lies lent) → m.Fair lies hosts lent start → m'.Watched lies start)

/-- Functions settle the values in care, give back the standing, and keep faith. -/
structure Invoke.Trusted (lies : Layouts) (hosts : List Charge) (w : Context) (invoke : Invoke) :
    Prop where
  settles : invoke.Settles
  level : invoke.Level (fun _ => True) invoke
  faithful : invoke.Faithful lies hosts w

theorem Invoke.Trusted.calls {lies : Layouts} {hosts : List Charge} {w : Context} {invoke : Invoke}
    (h : invoke.Trusted lies hosts w) (seat : Seat) :
    (Conduct.free .any seat).pact.Calls fun _ => invoke := h.level.calls seat

/-- A computation after which one may rely on what one could before, if a condition is met. -/
def Honors (lies : Layouts) (hosts lent : List Charge) {ε α : Type} (w : Context) (P : Prop)
    (x : Exec ε α) : Prop :=
  ∀ start m, Ensures x w m
    (fun _ m' => m.Onward m' ∧ (m.Unmarred m' → P → m.Fair lies hosts lent start →
      m'.Fair lies hosts lent start))
    fun _ m' => m.Onward m' ∧ (m.Unmarred m' → P → m.Fair lies hosts lent start →
      m'.Fair lies hosts lent start)

namespace Honors

variable {lies : Layouts} {hosts lent : List Charge} {ε δ α β : Type} {w : Context} {P : Prop}

theorem bind {x : Exec ε β} {f : β → Exec ε α} (hx : Honors lies hosts lent w P x)
    (hf : ∀ b, Honors lies hosts lent w P (f b)) : Honors lies hosts lent w P (x >>= f) := by
  intro start m
  refine Ensures.bind_iff.mpr ((hx start m).mono (fun b t ht => ?_) fun _ _ h => h)
  have hrest : ∀ m', t.Onward m' ∧ (t.Unmarred m' → P → t.Fair lies hosts lent start →
      m'.Fair lies hosts lent start) → m.Onward m' ∧ (m.Unmarred m' → P →
        m.Fair lies hosts lent start → m'.Fair lies hosts lent start) := by
    rintro m' ⟨honward, hfair⟩
    refine ⟨ht.1.trans honward, fun hu hP hm => ?_⟩
    obtain ⟨hu₁, hu₂⟩ := hu.split ht.1 honward
    exact hfair hu₂ hP (ht.2 hu₁ hP hm)
  exact (hf b start t).mono (fun _ m' h => hrest m' h) fun _ m' h => hrest m' h

theorem looks {x : Exec ε α} (hx : Looks x) : Honors lies hosts lent w P x := fun start m =>
  (hx w m).mono (fun _ _ h => by rw [h]; exact ⟨.refl m, fun _ _ hm => hm⟩)
    fun _ _ h => by rw [h]; exact ⟨.refl m, fun _ _ hm => hm⟩

theorem pure (r : α) : Honors lies hosts lent w P (Pure.pure r : Exec ε α) := looks (.pure r)

theorem throw (e : ε) : Honors lies hosts lent w P (MonadExcept.throw e : Exec ε α) :=
  looks (.throw e)

theorem mapError {x : Exec ε α} (f : ε → δ) (hx : Honors lies hosts lent w P x) :
    Honors lies hosts lent w P (Exec.mapError f x) := fun start m =>
  Ensures.exec_mapError_iff.mpr (hx start m)

theorem attempt {x : Exec ε α} (hx : Honors lies hosts lent w P x) :
    Honors lies hosts lent w P (Exec.attempt x : Exec δ (Except ε α)) := fun start m =>
  Ensures.exec_attempt_iff.mpr (hx start m)

theorem mono {P' : Prop} {x : Exec ε α} (hx : Honors lies hosts lent w P x) (hP : P' → P) :
    Honors lies hosts lent w P' x := fun start m =>
  (hx start m).mono (fun _ _ h => ⟨h.1, fun hu hP' => h.2 hu (hP hP')⟩)
    fun _ _ h => ⟨h.1, fun hu hP' => h.2 hu (hP hP')⟩

theorem modify {f : Machine → Machine}
    (hf : ∀ m, (f m).care = m.care ∧ (f m).watch = m.watch ∧ (f m).memory.next = m.memory.next ∧
      (f m).interpreter = m.interpreter) :
    Honors lies hosts lent w P (modify f : Exec ε PUnit) := by
  intro start m
  obtain ⟨hcare, hwatch, hnext, hinterpreter⟩ := hf m
  refine ⟨.of_eq hwatch (by rw [hcare]), fun _ _ hm => ⟨fun c hc => ?_, ?_, hm.hosts, ?_, ?_⟩⟩
  · rw [hcare] at hc
    rw [hnext]
    exact hm.ordered c hc
  · rw [hcare]
    exact hm.alive
  · unfold Machine.Worldly
    rw [hinterpreter]
    exact hm.world
  · exact hm.watched.of_watch hwatch

end Honors

namespace Invoke

open Exec

variable {lies : Layouts} {hosts lent : List Charge} {invoke : Invoke} {w : Context}

/-- Moving a result to its place is not remembered, and nothing goes astray. -/
theorem settleAt_ensures (t : TypeInfo) (target : Place) (result : Option Value) (m : Machine) :
    Ensures (settleAt t target result) w m
      (fun _ m' => m'.watch = m.watch ∧ m'.care.strays = m.care.strays)
      fun _ m' => m'.watch = m.watch ∧ m'.care.strays = m.care.strays := by
  cases result with
  | none => exact ⟨rfl, rfl⟩
  | some v =>
    obtain ⟨type, form, held⟩ := v
    cases held with
    | owned place size destructor => exact ⟨rfl, Care.strays_lose _ _⟩
    | borrowed place => exact ⟨rfl, rfl⟩
    | pointer place => exact ⟨rfl, rfl⟩

variable (h : invoke.Trusted lies hosts w) (hw : w.Sound lies)
include h hw

theorem honors_constructAt (handle : Handle) (target : Place) (args : List Value) :
    Honors lies hosts lent w (∀ v ∈ args, v.IsLent lies lent)
      (constructAt invoke (w.catalogue.info handle) target args) := by
  intro start m
  have hkeeps : Ensures (constructAt invoke (w.catalogue.info handle) target args) w m
      (fun _ m' => m'.standing = m.standing) fun _ m' => m'.standing = m.standing :=
    ((keeps_constructAt (h.calls .own) _ target args).ensures trivial).mono
      (fun _ _ hm => hm.standing) fun _ _ hm => hm.standing
  have hwatched : Ensures (constructAt invoke (w.catalogue.info handle) target args) w m
      (fun _ m' => m.Onward m' ∧ (m.Unmarred m' → (∀ v ∈ args, v.IsLent lies lent) →
        m.Fair lies hosts lent start → m'.Watched lies start))
      fun _ m' => m.Onward m' ∧ (m.Unmarred m' → (∀ v ∈ args, v.IsLent lies lent) →
        m.Fair lies hosts lent start → m'.Watched lies start) := by
    unfold constructAt
    split
    · refine Ensures.bind_iff.mpr ?_
      unfold callKey
      cases hf : (w.catalogue.info handle).resolve (.operator .construct)
          (args.map Value.argument) with
      | error e => exact ⟨.refl m, fun _ _ hm => hm.watched⟩
      | ok f =>
        have hdeclares := hw.functions handle _ f (TypeInfo.mem_of_resolve hf)
        refine (h.faithful f args (some target) m lent start).mono (fun result m₁ h₁ => ?_)
          fun _ m₁ h₁ => ⟨h₁.1, fun hu hargs hm => h₁.2 hu hdeclares hargs hm⟩
        have hend : ∀ m₂ : Machine, m₂.watch = m₁.watch ∧ m₂.care.strays = m₁.care.strays →
            m.Onward m₂ ∧ (m.Unmarred m₂ → (∀ v ∈ args, v.IsLent lies lent) →
              m.Fair lies hosts lent start → m₂.Watched lies start) := by
          rintro m₂ ⟨hwatch, hstrays⟩
          have honward : m₁.Onward m₂ := .of_eq hwatch hstrays
          refine ⟨h₁.1.trans honward, fun hu hargs hm => ?_⟩
          exact (h₁.2 (hu.split h₁.1 honward).1 hdeclares hargs hm).1.of_watch hwatch
        exact (settleAt_ensures _ target result m₁).mono (fun _ m₂ h₂ => hend m₂ h₂)
          fun _ m₂ h₂ => hend m₂ h₂
    · exact ⟨.refl m, fun _ _ hm => hm.watched⟩
  have hall := ((tidy_constructAt h.settles (w.catalogue.info handle) target args w m).and
    hkeeps).and hwatched
  have hfair : ∀ m' : Machine, (m.Carries [] [] m' ∧ m'.standing = m.standing) ∧ m.Onward m' ∧
      (m.Unmarred m' → (∀ v ∈ args, v.IsLent lies lent) → m.Fair lies hosts lent start →
        m'.Watched lies start) →
      m.Onward m' ∧ (m.Unmarred m' → (∀ v ∈ args, v.IsLent lies lent) →
        m.Fair lies hosts lent start → m'.Fair lies hosts lent start) :=
    fun m' ⟨⟨hc, hs⟩, honward, hwatch⟩ =>
      ⟨honward, fun hu hargs hm => hm.of_carries hc hu hs (hwatch hu hargs hm)⟩
  exact hall.mono (fun _ m' hm' => hfair m' hm') fun _ m' hm' => hfair m' hm'

theorem honors_defaultAt {P : Prop} (handle : Handle) (target : Place) :
    Honors lies hosts lent w P (defaultAt invoke (w.catalogue.info handle) target) :=
  (honors_constructAt h hw handle target []).mono fun _ => List.forall_mem_nil _

theorem honors_copyAt (handle : Handle) (target source : Place) :
    Honors lies hosts lent w (Lent lies lent source (w.catalogue.info handle).id)
      (copyAt invoke (w.catalogue.info handle) target source) := by
  refine (honors_constructAt h hw handle target _).mono fun hsource =>
    List.forall_mem_singleton.mpr fun place hplace => ?_
  cases hplace
  exact hsource

omit h hw

theorem honors_destroy {P : Prop} (destructor : Option Destructor) (p : Place) {ε : Type} :
    Honors lies hosts lent w P (destroy destructor p : Exec ε Unit) := by
  cases destructor with
  | none => exact .pure _
  | some d => exact .modify fun _ => ⟨rfl, rfl, rfl, rfl⟩

theorem honors_orEnd {P : Prop} (destructor : Option Destructor) (place : Place) {ε : Type}
    {rest : Exec ε Unit} (hrest : Honors lies hosts lent w P rest) :
    Honors lies hosts lent w P (orEnd destructor place rest) := by
  refine hrest.attempt.bind fun outcome => ?_
  cases outcome with
  | ok u => exact .pure _
  | error e => exact (honors_destroy destructor place).bind fun _ => .throw e

mutual

theorem honors_decode (h : invoke.Trusted lies hosts w) (hw : w.Sound lies) {P : Prop} (codec : Codec)
    (j : Json) (target : Place) : Honors lies hosts lent w P (decode invoke codec j target) := by
  cases codec with
  | native c =>
    unfold decode
    cases c.decode j with
    | ok data => exact .modify fun m => ⟨rfl, rfl, m.memory.next_writeLeaves _ _ _, rfl⟩
    | error e => exact .throw e
  | aggregate parts =>
    unfold decode
    cases j with
    | obj entries => exact honors_decodeParts h hw parts entries target
    | _ => exact .throw _

theorem honors_decodeParts (h : invoke.Trusted lies hosts w) (hw : w.Sound lies) {P : Prop}
    (parts : List (Part × Codec)) (entries : List (String × Json)) (target : Place) :
    Honors lies hosts lent w P (decodeParts invoke parts entries target) := by
  match parts with
  | [] =>
    unfold decodeParts
    exact .pure _
  | (part, codec) :: rest =>
    have hrest : Honors lies hosts lent w P (orEnd part.destructor (target.shift part.offset)
        (decodeParts invoke rest entries target)) :=
      honors_orEnd _ _ (honors_decodeParts h hw rest entries target)
    unfold decodeParts
    cases entries.lookup part.name with
    | some j => exact ((honors_decode h hw codec j _).mapError _).bind fun _ => hrest
    | none =>
      cases part.default with
      | some j => exact ((honors_decode h hw codec j _).mapError _).bind fun _ => hrest
      | none => exact (honors_defaultAt h hw part.type _).bind fun _ => hrest

end

theorem honors_decodeAt (h : invoke.Trusted lies hosts w) (hw : w.Sound lies) {P : Prop} (t : TypeInfo)
    (j : Json) (target : Place) : Honors lies hosts lent w P (decodeAt invoke t j target) := by
  unfold decodeAt
  cases t.codec with
  | some codec => exact honors_decode h hw codec j target
  | none => exact .throw _

end Invoke

end Flowscript
